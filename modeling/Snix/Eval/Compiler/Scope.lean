import Snix.Lib.Bytes
import Mathlib.Data.List.Basic

/-!
# Scopes of the compiler

The compiler keeps a stack of locals, and for each name the indices of the locals that have it. A
name that one local has is kept apart from a name that several have.

## Main definitions

- `ByName` — the locals that have a name
- `Scope` — the locals in scope, the newest first
- `Op`, `Scope.run` — what is done to a scope
- `Frames` — the locals that are in scope, by the scope that they are declared in

## Main results

- `Simulates.run` — a scope and the frames do the same
- `resolves_newest` — names resolve to the newest local, and ending a scope restores them
-/

namespace Snix.Eval.Compiler

/-- The names of locals. -/
abbrev Name := Bytes

inductive LocalName where
  | ident (name : Name)
  | phantom
  deriving DecidableEq

variable {Span : Type}

/-- A local. -/
structure Local (Span : Type) where
  name : LocalName
  span : Option Span
  depth : ℕ
  initialised : Bool
  used : Bool
  needsFinaliser : Bool
  mustThunk : Bool

/-- The name of a local that has one. -/
def Local.ident (l : Local Span) : Option Name :=
  match l.name with
  | .ident name => some name
  | .phantom => none

/-- Is the local ignored on purpose? -/
def Local.isIgnored (l : Local Span) : Bool :=
  match l.name with
  | .ident name => name.head? == some 95
  | .phantom => false

def Local.isUsed (l : Local Span) : Bool := l.depth = 0 || l.used || l.isIgnored

inductive LocalPosition where
  | unknown
  | known (idx : ℕ)
  | recursive (idx : ℕ)
  deriving DecidableEq, Repr

/-- The indices of the locals with a name. -/
inductive ByName where
  | single (idx : ℕ)
  | shadowed (indices : List ℕ)
  deriving DecidableEq

namespace ByName

def addIdx (new : ℕ) : ByName → ByName
  | shadowed indices => shadowed (indices ++ [new])
  | single idx => shadowed [idx, new]

/-- Removes the newest index, unless it is the only one. -/
def removeIdx : ByName → ByName × Bool
  | single idx => (single idx, false)
  | shadowed [fst, _] => (single fst, true)
  | shadowed indices => (shadowed indices.dropLast, true)

/-- The newest index. There is a panic if there is none. -/
def index : ByName → Option ℕ
  | single idx => some idx
  | shadowed indices => indices.getLast?

end ByName

/-- A scope. Its locals are a stack with the newest one on top, and the index of a local is the number
    of those below it. -/
structure Scope (Span : Type) where
  locals : List (Local Span)
  byName : Name → Option ByName
  scopeDepth : ℕ

/-- The local with an index. -/
def localAt (idx : ℕ) : List (Local Span) → Option (Local Span)
  | [] => none
  | l :: below => if below.length = idx then some l else localAt idx below

/-- Marks the local with an index, where `n` more are below. -/
def markAt (idx n : ℕ) : List (Local Span) → List (Local Span)
  | [] => []
  | l :: below =>
    (if n + below.length = idx then { l with initialised := true } else l) :: markAt idx n below

namespace Scope

/-- A scope without locals. -/
def start (depth : ℕ) : Scope Span := ⟨[], fun _ => none, depth⟩

/-- Where a name is. There is a panic if an index is not one of a local. -/
def resolveLocal (s : Scope Span) (name : Name) : Option LocalPosition :=
  match s.byName name with
  | some byName => do
    let idx ← byName.index
    let l ← localAt idx s.locals
    some (if !l.initialised then .recursive idx else .known idx)
  | none => some .unknown

def declarePhantom (s : Scope Span) (span : Span) (initialised : Bool) : Scope Span × ℕ :=
  ({ s with locals := ⟨.phantom, some span, s.scopeDepth, initialised, true, false, false⟩ :: s.locals },
    s.locals.length)

/-- Declares a local, and returns its index and that of the local that it shadows. -/
def declareLocal (s : Scope Span) (name : Name) (span : Span) :
    Option (Scope Span × ℕ × Option ℕ) :=
  let idx := s.locals.length
  let locals := ⟨.ident name, some span, s.scopeDepth, false, false, false, false⟩ :: s.locals
  match s.byName name with
  | some existing => do
    let shadowed ← existing.index
    some ({ s with
      locals := locals
      byName := Function.update s.byName name (some (existing.addIdx idx)) }, idx, some shadowed)
  | none => some ({ s with
      locals := locals
      byName := Function.update s.byName name (some (.single idx)) }, idx, none)

def markInitialised (s : Scope Span) (idx : ℕ) : Option (Scope Span) :=
  if idx < s.locals.length then some { s with locals := markAt idx 0 s.locals } else none

def beginScope (s : Scope Span) : Scope Span := { s with scopeDepth := s.scopeDepth + 1 }

/-- The names without the newest local, which has a name or is a phantom. -/
def forget (byName : Name → Option ByName) : LocalName → Name → Option ByName
  | .phantom => byName
  | .ident name =>
    match byName name with
    | some entry =>
      if entry.removeIdx.2 then Function.update byName name (some entry.removeIdx.1)
      else Function.update byName name none
    | none => byName

/-- Pops the locals of a depth. There is a panic if no other local is below. -/
def popLocals (depth : ℕ) : List (Local Span) → (Name → Option ByName) → ℕ → List Span →
    Option (List (Local Span) × (Name → Option ByName) × ℕ × List Span)
  | [], _, _, _ => none
  | l :: below, byName, pops, unusedSpans =>
    if l.depth = depth then
      popLocals depth below (forget byName l.name) (if l.initialised then pops + 1 else pops)
        (if l.isUsed then unusedSpans else unusedSpans ++ l.span.toList)
    else some (l :: below, byName, pops, unusedSpans)

/-- Ends the scope, and returns the number of initialised locals and the spans of unused ones. -/
def endScope (s : Scope Span) : Option (Scope Span × ℕ × List Span) := do
  let (locals, byName, pops, unusedSpans) ← popLocals s.scopeDepth s.locals s.byName 0 []
  some (⟨locals, byName, s.scopeDepth - 1⟩, pops, unusedSpans)

end Scope

-- ====================
-- Runs
-- ====================

inductive Op (Span : Type) where
  | beginScope
  | declareLocal (name : Name) (span : Span)
  | declarePhantom (span : Span) (initialised : Bool)
  | markInitialised (idx : ℕ)
  | endScope

def Scope.step (s : Scope Span) : Op Span → Option (Scope Span)
  | .beginScope => some s.beginScope
  | .declareLocal name span => (s.declareLocal name span).map Prod.fst
  | .declarePhantom span initialised => some (s.declarePhantom span initialised).1
  | .markInitialised idx => s.markInitialised idx
  | .endScope => s.endScope.map Prod.fst

/-- The scope after a sequence of operations, unless one of them panics. -/
def Scope.run (s : Scope Span) (ops : List (Op Span)) : Option (Scope Span) := ops.foldlM Scope.step s

/-- A local that is in scope: how many are older, its name unless it is a phantom, and whether it is
    initialised. -/
structure Entry where
  idx : ℕ
  name : Option Name
  initialised : Bool
  deriving DecidableEq

/-- The locals of each scope that is not ended. The innermost scope comes first, and in it the newest
    local. -/
abbrev Frames := List (List Entry)

def Entry.mark (idx : ℕ) (e : Entry) : Entry := if e.idx = idx then { e with initialised := true } else e

/-- Where a local is. -/
def Entry.position (e : Entry) : LocalPosition :=
  if e.initialised then .known e.idx else .recursive e.idx

namespace Frames

/-- The newest local with the name. -/
def resolve (F : Frames) (name : Name) : LocalPosition :=
  match F.flatten.find? fun e => e.name = some name with
  | some e => e.position
  | none => .unknown

def declare (name : Option Name) (initialised : Bool) : Frames → Option Frames
  | [] => none
  | frame :: outer => some ((⟨(frame :: outer).flatten.length, name, initialised⟩ :: frame) :: outer)

/-- A step. The first scope is not ended, and neither is one when no local is older. -/
def step (F : Frames) : Op Span → Option Frames
  | .beginScope => some ([] :: F)
  | .declareLocal name _ => declare (some name) false F
  | .declarePhantom _ initialised => declare none initialised F
  | .markInitialised idx =>
    if idx < F.flatten.length then some (F.map (List.map (Entry.mark idx))) else none
  | .endScope => if F.tail.flatten = [] then none else some F.tail

def run (F : Frames) (ops : List (Op Span)) : Option Frames := ops.foldlM Frames.step F

end Frames

-- ====================
-- The index
-- ====================

/-- The indices of the locals with the name, the oldest first. -/
def indices (name : Name) : List (Local Span) → List ℕ
  | [] => []
  | l :: below => indices name below ++ if l.ident = some name then [below.length] else []

/-- One index is kept apart from several. -/
def ByName.ofIndices : List ℕ → Option ByName
  | [] => none
  | [idx] => some (.single idx)
  | indices => some (.shadowed indices)

/-- The index by name that the locals should have. -/
def names (locals : List (Local Span)) (name : Name) : Option ByName :=
  ByName.ofIndices (indices name locals)

theorem ByName.ofIndices_append (is : List ℕ) (i : ℕ) :
    ∃ b, ofIndices (is ++ [i]) = some b ∧ b.index = some i ∧
      b.removeIdx.2 = (ofIndices is).isSome ∧ ∀ b', ofIndices is = some b' → b.removeIdx.1 = b' := by
  match is with
  | [] => exact ⟨_, rfl, rfl, rfl, nofun⟩
  | [a] => exact ⟨_, rfl, rfl, rfl, fun b' h => Option.some.inj h⟩
  | a :: c :: is =>
    refine ⟨.shadowed ((a :: c :: is) ++ [i]), rfl, ?_, ?_, ?_⟩
    · rw [index, List.getLast?_concat]
    · cases is <;> rfl
    · intro b' h
      cases h
      have hdrop : ByName.removeIdx (.shadowed ((a :: c :: is) ++ [i])) =
          (.shadowed ((a :: c :: is) ++ [i]).dropLast, true) := by
        cases is <;> rfl
      rw [hdrop, List.dropLast_concat]

/-- Declaring a name adds an index to those of the name. -/
theorem ByName.ofIndices_addIdx {is : List ℕ} {b : ByName} (h : ofIndices is = some b) (i : ℕ) :
    some (b.addIdx i) = ofIndices (is ++ [i]) := by
  match is with
  | [] => cases h
  | [a] =>
    cases h
    rfl
  | a :: c :: is =>
    cases h
    rfl

theorem indices_of_ident {l : Local Span} {name : Name} (h : l.ident = some name)
    (below : List (Local Span)) : indices name (l :: below) = indices name below ++ [below.length] := by
  rw [indices, if_pos h]

theorem indices_of_ne {l : Local Span} {name : Name} (h : l.ident ≠ some name)
    (below : List (Local Span)) : indices name (l :: below) = indices name below := by
  rw [indices, if_neg h, List.append_nil]

/-- Forgetting the newest local leaves the index of those below. -/
theorem forget_names (l : Local Span) (below : List (Local Span)) :
    Scope.forget (names (l :: below)) l.name = names below := by
  cases hname : l.name with
  | phantom =>
    funext name
    have hident : l.ident ≠ some name := by
      rw [Local.ident, hname]
      nofun
    exact congrArg ByName.ofIndices (indices_of_ne hident below)
  | ident name =>
    have hident : l.ident = some name := by rw [Local.ident, hname]
    obtain ⟨b, hb, -, hsome, hfst⟩ := ByName.ofIndices_append (indices name below) below.length
    have hentry : names (l :: below) name = some b := by
      rw [names, indices_of_ident hident, hb]
    have hother : ∀ other, other ≠ name → names (l :: below) other = names below other := by
      intro other hne
      have hident' : l.ident ≠ some other := by
        rw [hident]
        exact fun h => hne (Option.some.inj h).symm
      exact congrArg ByName.ofIndices (indices_of_ne hident' below)
    rw [Scope.forget, hentry]
    dsimp only
    rw [hsome]
    funext other
    cases hbelow : ByName.ofIndices (indices name below) with
    | none =>
      rw [Option.isSome_none, if_neg Bool.false_ne_true, Function.update_apply]
      split
      case isTrue heq => rw [heq, names, hbelow]
      case isFalse hne => exact hother other hne
    | some b' =>
      rw [Option.isSome_some, if_pos rfl, hfst b' hbelow, Function.update_apply]
      split
      case isTrue heq => rw [heq, names, hbelow]
      case isFalse hne => exact hother other hne

/-- Declaring a local adds its index. -/
theorem declareLocal_names {s : Scope Span} (h : s.byName = names s.locals) (name : Name)
    (span : Span) :
    ∃ l shadowed, l.ident = some name ∧ l.depth = s.scopeDepth ∧ l.initialised = false ∧
      s.declareLocal name span =
        some (⟨l :: s.locals, names (l :: s.locals), s.scopeDepth⟩, s.locals.length, shadowed) := by
  refine ⟨⟨.ident name, some span, s.scopeDepth, false, false, false, false⟩,
    (s.byName name).bind ByName.index, rfl, rfl, rfl, ?_⟩
  have hupdate : ∀ entry, some entry = ByName.ofIndices (indices name s.locals ++ [s.locals.length]) →
      Function.update s.byName name (some entry) =
        names (⟨.ident name, some span, s.scopeDepth, false, false, false, false⟩ :: s.locals) := by
    intro entry hentry
    funext other
    rw [Function.update_apply, names]
    split
    case isTrue heq => rw [heq, indices_of_ident rfl, hentry]
    case isFalse hne =>
      have hother : (⟨.ident name, some span, s.scopeDepth, false, false, false, false⟩ :
          Local Span).ident ≠ some other := fun hident => hne (Option.some.inj hident).symm
      rw [indices_of_ne hother, h]
      rfl
  rw [Scope.declareLocal]
  cases hexisting : s.byName name with
  | none =>
    have hnil : indices name s.locals = [] := by
      rw [h, names] at hexisting
      match hindices : indices name s.locals with
      | [] => rfl
      | [a] => rw [hindices] at hexisting; cases hexisting
      | a :: c :: is => rw [hindices] at hexisting; cases hexisting
    dsimp only
    rw [← hupdate (.single s.locals.length) (by rw [hnil]; rfl)]
    rfl
  | some existing =>
    rw [h, names] at hexisting
    have hentry := ByName.ofIndices_addIdx hexisting s.locals.length
    have hindex : ∃ i, existing.index = some i := by
      match hindices : indices name s.locals with
      | [] => rw [hindices] at hexisting; cases hexisting
      | [a] =>
        rw [hindices] at hexisting
        cases hexisting
        exact ⟨a, rfl⟩
      | a :: c :: is =>
        rw [hindices] at hexisting
        cases hexisting
        exact ⟨_, List.getLast?_cons⟩
    obtain ⟨i, hi⟩ := hindex
    simp only [hi, Option.bind_eq_bind, Option.bind_some]
    rw [← hupdate _ hentry]

/-- Popping the locals of a depth leaves those below, with their index. -/
theorem popLocals_append {depth : ℕ} {g below : List (Local Span)} (hg : ∀ l ∈ g, l.depth = depth)
    (hbelow : ∀ l ∈ below, l.depth ≠ depth) (pops : ℕ) (unusedSpans : List Span) :
    (below = [] → Scope.popLocals depth (g ++ below) (names (g ++ below)) pops unusedSpans = none) ∧
      (below ≠ [] → ∃ pops' unusedSpans', Scope.popLocals depth (g ++ below) (names (g ++ below)) pops
        unusedSpans = some (below, names below, pops', unusedSpans')) := by
  induction g generalizing pops unusedSpans with
  | nil =>
    cases below with
    | nil => exact ⟨fun _ => rfl, fun h => absurd rfl h⟩
    | cons l below =>
      refine ⟨nofun, fun _ => ⟨pops, unusedSpans, ?_⟩⟩
      rw [List.nil_append, Scope.popLocals, if_neg (hbelow l List.mem_cons_self)]
  | cons l g ih =>
    obtain ⟨hl, hg⟩ := List.forall_mem_cons.mp hg
    rw [List.cons_append, Scope.popLocals, if_pos hl, forget_names]
    exact ih hg _ _

theorem localAt_lt {idx : ℕ} {locals : List (Local Span)} {l : Local Span}
    (h : localAt idx locals = some l) : idx < locals.length := by
  induction locals with
  | nil => cases h
  | cons first below ih =>
    rw [localAt] at h
    rw [List.length_cons]
    split at h
    case isTrue heq => omega
    case isFalse => exact Nat.lt_succ_of_lt (ih h)

-- ====================
-- The frames of a scope
-- ====================

/-- Locals as entries, where `n` more are below. -/
def entries (n : ℕ) : List (Local Span) → List Entry
  | [] => []
  | l :: below => ⟨n + below.length, l.ident, l.initialised⟩ :: entries n below

theorem entries_append (n : ℕ) (a b : List (Local Span)) :
    entries n (a ++ b) = entries (n + b.length) a ++ entries n b := by
  induction a with
  | nil => rfl
  | cons l a ih =>
    have hidx : n + (a ++ b).length = n + b.length + a.length := by
      rw [List.length_append, Nat.add_comm a.length, Nat.add_assoc]
    rw [List.cons_append, entries, entries, ih, hidx, List.cons_append]

theorem length_entries (n : ℕ) (locals : List (Local Span)) :
    (entries n locals).length = locals.length := by
  induction locals with
  | nil => rfl
  | cons l below ih => rw [entries, List.length_cons, List.length_cons, ih]

theorem markAt_append (idx n : ℕ) (a b : List (Local Span)) :
    markAt idx n (a ++ b) = markAt idx (n + b.length) a ++ markAt idx n b := by
  induction a with
  | nil => rfl
  | cons l a ih =>
    have hidx : n + (a ++ b).length = n + b.length + a.length := by
      rw [List.length_append, Nat.add_comm a.length, Nat.add_assoc]
    rw [List.cons_append, markAt, markAt, ih, hidx, List.cons_append]

theorem length_markAt (idx n : ℕ) (locals : List (Local Span)) :
    (markAt idx n locals).length = locals.length := by
  induction locals with
  | nil => rfl
  | cons l below ih => rw [markAt, List.length_cons, List.length_cons, ih]

theorem entries_markAt (idx n : ℕ) (locals : List (Local Span)) :
    entries n (markAt idx n locals) = (entries n locals).map (Entry.mark idx) := by
  induction locals with
  | nil => rfl
  | cons l below ih =>
    rw [markAt, entries, entries, List.map_cons, ih, length_markAt, Entry.mark]
    split <;> rfl

theorem indices_markAt (idx n : ℕ) (name : Name) (locals : List (Local Span)) :
    indices name (markAt idx n locals) = indices name locals := by
  induction locals with
  | nil => rfl
  | cons l below ih =>
    rw [markAt, indices, indices, ih, length_markAt]
    split <;> rfl

theorem depth_of_mem_markAt {idx n : ℕ} {locals : List (Local Span)} {l : Local Span}
    (h : l ∈ markAt idx n locals) : ∃ l' ∈ locals, l'.depth = l.depth := by
  induction locals with
  | nil => cases h
  | cons first below ih =>
    obtain rfl | h := List.mem_cons.mp h
    · refine ⟨first, List.mem_cons_self, ?_⟩
      split <;> rfl
    · obtain ⟨l', hl', hdepth⟩ := ih h
      exact ⟨l', List.mem_cons_of_mem _ hl', hdepth⟩

/-- Layers of locals as frames. -/
def toFrames : List (List (Local Span)) → Frames
  | [] => []
  | g :: outer => entries outer.flatten.length g :: toFrames outer

/-- The locals of each layer have the depth of the layer. -/
def Layered (base : ℕ) : List (List (Local Span)) → Prop
  | [] => True
  | g :: outer => (∀ l ∈ g, l.depth = base + outer.length) ∧ Layered base outer

def markLayers (idx : ℕ) : List (List (Local Span)) → List (List (Local Span))
  | [] => []
  | g :: outer => markAt idx outer.flatten.length g :: markLayers idx outer

variable {G : List (List (Local Span))} {base : ℕ}

theorem flatten_toFrames (G : List (List (Local Span))) :
    (toFrames G).flatten = entries 0 G.flatten := by
  induction G with
  | nil => rfl
  | cons g outer ih =>
    rw [toFrames, List.flatten_cons, List.flatten_cons, ih, entries_append, Nat.zero_add]

theorem length_flatten_toFrames (G : List (List (Local Span))) :
    (toFrames G).flatten.length = G.flatten.length := by
  rw [flatten_toFrames, length_entries]

theorem flatten_markLayers (idx : ℕ) (G : List (List (Local Span))) :
    (markLayers idx G).flatten = markAt idx 0 G.flatten := by
  induction G with
  | nil => rfl
  | cons g outer ih =>
    rw [markLayers, List.flatten_cons, List.flatten_cons, ih, markAt_append, Nat.zero_add]

theorem toFrames_markLayers (idx : ℕ) (G : List (List (Local Span))) :
    toFrames (markLayers idx G) = (toFrames G).map (List.map (Entry.mark idx)) := by
  induction G with
  | nil => rfl
  | cons g outer ih =>
    rw [markLayers, toFrames, toFrames, List.map_cons, ih, flatten_markLayers, length_markAt,
      entries_markAt]

theorem length_markLayers (idx : ℕ) (G : List (List (Local Span))) :
    (markLayers idx G).length = G.length := by
  induction G with
  | nil => rfl
  | cons g outer ih => rw [markLayers, List.length_cons, List.length_cons, ih]

theorem Layered.markLayers (h : Layered base G) (idx : ℕ) : Layered base (markLayers idx G) := by
  induction G with
  | nil => trivial
  | cons g outer ih =>
    obtain ⟨hg, houter⟩ := h
    refine ⟨fun l hl => ?_, ih houter⟩
    obtain ⟨l', hl', hdepth⟩ := depth_of_mem_markAt hl
    rw [← hdepth, hg l' hl', length_markLayers]

theorem Layered.depth_lt (h : Layered base G) : ∀ l ∈ G.flatten, l.depth < base + G.length := by
  induction G with
  | nil => nofun
  | cons g outer ih =>
    obtain ⟨hg, houter⟩ := h
    intro l hl
    rw [List.length_cons]
    obtain hl | hl := List.mem_append.mp hl
    · have hdepth := hg l hl
      omega
    · have hdepth := ih houter l hl
      omega

/-- A scope whose locals are those of the frames, with the index that they should have. -/
structure Simulates (F : Frames) (s : Scope Span) : Prop where
  layers : ∃ (base : ℕ) (G : List (List (Local Span))), toFrames G = F ∧ G.flatten = s.locals ∧
    Layered base G ∧ G ≠ [] ∧ s.scopeDepth + 1 = base + G.length
  byName : s.byName = names s.locals

variable {F F' : Frames} {s s' : Scope Span}

theorem Simulates.flatten (h : Simulates F s) : F.flatten = entries 0 s.locals := by
  obtain ⟨base, G, rfl, hflatten, -⟩ := h.layers
  rw [flatten_toFrames, hflatten]

/-- Looking a name up in the index finds the newest local with the name. -/
theorem resolve_names (name : Name) (locals : List (Local Span)) :
    Scope.resolveLocal ⟨locals, names locals, 0⟩ name =
      some (Frames.resolve [entries 0 locals] name) := by
  have hflatten : [entries 0 locals].flatten = entries 0 locals := List.flatten_singleton
  rw [Scope.resolveLocal, Frames.resolve, hflatten]
  dsimp only
  induction locals with
  | nil => rfl
  | cons l below ih =>
    by_cases hident : l.ident = some name
    · obtain ⟨b, hb, hindex, -⟩ := ByName.ofIndices_append (indices name below) below.length
      have hentry : names (l :: below) name = some b := by
        rw [names, indices_of_ident hident, hb]
      have hat : localAt below.length (l :: below) = some l := by rw [localAt, if_pos rfl]
      have hfind : (entries 0 (l :: below)).find? (fun e => e.name = some name) =
          some ⟨0 + below.length, l.ident, l.initialised⟩ := by
        rw [entries, List.find?_cons_of_pos (by simpa using hident)]
      rw [hentry, hfind]
      simp only [hindex, Option.bind_eq_bind, Option.bind_some, hat, Entry.position, Nat.zero_add]
      cases l.initialised <;> rfl
    · have hentry : names (l :: below) name = names below name :=
        congrArg ByName.ofIndices (indices_of_ne hident below)
      have hfind : (entries 0 (l :: below)).find? (fun e => e.name = some name) =
          (entries 0 below).find? fun e => e.name = some name := by
        rw [entries, List.find?_cons_of_neg (by simpa using hident)]
      have hbelow := ih List.flatten_singleton
      rw [hentry, hfind]
      cases hnames : names below name with
      | none =>
        rw [hnames] at hbelow
        exact hbelow
      | some b =>
        rw [hnames] at hbelow
        dsimp only at hbelow ⊢
        cases hindex : b.index with
        | none =>
          rw [hindex] at hbelow
          cases hbelow
        | some idx =>
          rw [hindex, Option.bind_eq_bind, Option.bind_some] at hbelow
          cases hat : localAt idx below with
          | none =>
            rw [hat] at hbelow
            cases hbelow
          | some l' =>
            have hskip : localAt idx (l :: below) = some l' := by
              rw [localAt, if_neg (Nat.ne_of_gt (localAt_lt hat)), hat]
            rw [hat] at hbelow
            rw [Option.bind_eq_bind, Option.bind_some, hskip]
            exact hbelow

/-- Names resolve to the newest local in scope. -/
theorem Simulates.resolve (h : Simulates F s) (name : Name) :
    s.resolveLocal name = some (F.resolve name) := by
  have hnames := resolve_names name s.locals
  rw [Scope.resolveLocal, Frames.resolve, List.flatten_singleton] at hnames
  rw [Scope.resolveLocal, Frames.resolve, h.byName, h.flatten]
  exact hnames

theorem simulates_start (depth : ℕ) : Simulates [[]] (Scope.start depth : Scope Span) where
  layers := ⟨depth, [[]], rfl, rfl, ⟨nofun, trivial⟩, List.cons_ne_nil _ _, rfl⟩
  byName := rfl

/-- A declaration in the frames and in the scope. -/
theorem Simulates.declare (h : Simulates F s) {l : Local Span} (hdepth : l.depth = s.scopeDepth) :
    ∃ F', F.declare l.ident l.initialised = some F' ∧
      Simulates F' ⟨l :: s.locals, names (l :: s.locals), s.scopeDepth⟩ := by
  obtain ⟨base, G, rfl, hflatten, hlayered, hne, hscope⟩ := h.layers
  cases G with
  | nil => exact absurd rfl hne
  | cons g outer =>
    obtain ⟨hg, houter⟩ := hlayered
    rw [List.length_cons] at hscope
    refine ⟨toFrames ((l :: g) :: outer), ?_, ⟨base, (l :: g) :: outer, rfl, ?_, ⟨?_, houter⟩,
      List.cons_ne_nil _ _, hscope⟩, rfl⟩
    · have hidx : (toFrames (g :: outer)).flatten.length = outer.flatten.length + g.length := by
        rw [length_flatten_toFrames, List.flatten_cons, List.length_append, Nat.add_comm]
      rw [toFrames] at hidx
      rw [toFrames, Frames.declare, hidx, toFrames, entries]
    · rw [← hflatten, List.flatten_cons, List.flatten_cons, List.cons_append]
    · refine List.forall_mem_cons.mpr ⟨?_, hg⟩
      omega

/-- A step is done in the frames and in the scope, or in none of them. -/
def SameStep (F : Frames) (s : Scope Span) (op : Op Span) : Prop :=
  (∃ F' s', F.step op = some F' ∧ s.step op = some s' ∧ Simulates F' s') ∨
    (F.step op = none ∧ s.step op = none)

/-- Locals are marked in the frames and in the scope, if they are there. -/
theorem Simulates.markInitialised (h : Simulates F s) (idx : ℕ) :
    SameStep F s (.markInitialised idx) := by
  obtain ⟨base, G, rfl, hflatten, hlayered, hne, hscope⟩ := h.layers
  by_cases hidx : idx < s.locals.length
  · refine .inl ⟨_, _, if_pos ?_, if_pos hidx, ⟨base, markLayers idx G, ?_, ?_,
      hlayered.markLayers idx, ?_, ?_⟩, ?_⟩
    · rw [length_flatten_toFrames, hflatten]
      exact hidx
    · exact toFrames_markLayers idx G
    · rw [flatten_markLayers, hflatten]
    · rw [← List.length_pos_iff, length_markLayers]
      exact List.length_pos_iff.mpr hne
    · rw [length_markLayers]
      exact hscope
    · rw [h.byName]
      funext name
      exact congrArg ByName.ofIndices (indices_markAt idx 0 name s.locals).symm
  · refine .inr ⟨if_neg ?_, if_neg hidx⟩
    rw [length_flatten_toFrames, hflatten]
    exact hidx

/-- The newest frame is dropped with the locals of its depth, unless no locals are left. -/
theorem Simulates.endScope (h : Simulates F s) : SameStep F s .endScope := by
  obtain ⟨base, G, rfl, hflatten, hlayered, hne, hscope⟩ := h.layers
  cases G with
  | nil => exact absurd rfl hne
  | cons g outer =>
    obtain ⟨hg, houter⟩ := hlayered
    rw [List.length_cons] at hscope
    have hdepth : s.scopeDepth = base + outer.length := by omega
    have hbelow : ∀ l ∈ outer.flatten, l.depth ≠ base + outer.length :=
      fun l hl => Nat.ne_of_lt (houter.depth_lt l hl)
    obtain ⟨hnil, hcons⟩ := popLocals_append hg hbelow 0 []
    rw [← List.flatten_cons, hflatten, ← h.byName, ← hdepth] at hnil hcons
    have htail : (toFrames (g :: outer)).tail = toFrames outer := rfl
    have hempty : (toFrames outer).flatten = [] ↔ outer.flatten = [] := by
      rw [← List.length_eq_zero_iff, length_flatten_toFrames, List.length_eq_zero_iff]
    by_cases houterNil : outer.flatten = []
    · refine .inr ⟨if_pos ?_, ?_⟩
      · rw [htail]
        exact hempty.mpr houterNil
      · rw [Scope.step, Scope.endScope, hnil houterNil]
        rfl
    · obtain ⟨pops, unusedSpans, hpop⟩ := hcons houterNil
      have houterNe : outer ≠ [] := by
        rintro rfl
        exact houterNil rfl
      refine .inl ⟨toFrames outer, ⟨outer.flatten, names outer.flatten, s.scopeDepth - 1⟩,
        if_neg ?_, ?_, ⟨base, outer, rfl, rfl, houter, houterNe, ?_⟩, rfl⟩
      · rw [htail]
        exact fun hflat => houterNil (hempty.mp hflat)
      · rw [Scope.step, Scope.endScope, hpop]
        rfl
      · have hpos := List.length_pos_iff.mpr houterNe
        dsimp only
        omega

/-- One step is done in the frames exactly if it is done in the scope. -/
theorem Simulates.step (h : Simulates F s) (op : Op Span) :
    SameStep F s op := by
  cases op with
  | beginScope =>
    obtain ⟨base, G, rfl, hflatten, hlayered, hne, hscope⟩ := h.layers
    refine .inl ⟨_, _, rfl, rfl, ⟨base, [] :: G, rfl, hflatten, ⟨nofun, hlayered⟩,
      List.cons_ne_nil _ _, ?_⟩, h.byName⟩
    rw [Scope.beginScope, List.length_cons, hscope, Nat.add_assoc]
  | declareLocal name span =>
    obtain ⟨l, shadowed, hident, hdepth, hinitialised, hdeclare⟩ :=
      declareLocal_names h.byName name span
    obtain ⟨F', hF', hsim⟩ := h.declare hdepth
    rw [hident, hinitialised] at hF'
    exact .inl ⟨F', _, hF', by rw [Scope.step, hdeclare, Option.map_some], hsim⟩
  | declarePhantom span initialised =>
    obtain ⟨F', hF', hsim⟩ := h.declare (l := ⟨.phantom, some span, s.scopeDepth, initialised, true,
      false, false⟩) rfl
    refine .inl ⟨F', _, hF', rfl, ?_⟩
    have hnames : names (⟨.phantom, some span, s.scopeDepth, initialised, true, false, false⟩ ::
        s.locals) = s.byName := by
      rw [h.byName]
      exact forget_names ⟨.phantom, some span, s.scopeDepth, initialised, true, false, false⟩ s.locals
    rw [Scope.declarePhantom, ← hnames]
    exact hsim
  | markInitialised idx => exact h.markInitialised idx
  | endScope => exact h.endScope

theorem Simulates.run (h : Simulates F s) (ops : List (Op Span)) :
    (∃ F' s', F.run ops = some F' ∧ s.run ops = some s' ∧ Simulates F' s') ∨
      (F.run ops = none ∧ s.run ops = none) := by
  induction ops generalizing F s with
  | nil => exact .inl ⟨F, s, rfl, rfl, h⟩
  | cons op ops ih =>
    rw [Frames.run, Scope.run, List.foldlM_cons, List.foldlM_cons]
    obtain ⟨F₁, s₁, hF, hs, hsim⟩ | ⟨hF, hs⟩ := h.step op
    · rw [hF, hs]
      exact ih hsim
    · rw [hF, hs]
      exact .inr ⟨rfl, rfl⟩

-- ====================
-- Ending a scope
-- ====================

/-- Every scope that is begun is ended, and no other. -/
inductive Balanced : List (Op Span) → Prop where
  | nil : Balanced []
  | cons {op : Op Span} {ops : List (Op Span)} :
      op ≠ .beginScope → op ≠ .endScope → Balanced ops → Balanced (op :: ops)
  | scope {inner ops : List (Op Span)} :
      Balanced inner → Balanced ops → Balanced (.beginScope :: (inner ++ .endScope :: ops))

/-- The locals that are marked as initialised. -/
def marks (ops : List (Op Span)) : List ℕ :=
  ops.filterMap fun op => match op with
    | .markInitialised idx => some idx
    | _ => none

/-- Where a name is after locals are marked. -/
def LocalPosition.mark (is : List ℕ) : LocalPosition → LocalPosition
  | .recursive idx => if idx ∈ is then .known idx else .recursive idx
  | position => position

theorem LocalPosition.mark_nil (p : LocalPosition) : p.mark [] = p := by
  cases p with
  | recursive idx => rw [mark, if_neg List.not_mem_nil]
  | _ => rfl

theorem Entry.mark_name (e : Entry) (i : ℕ) : (e.mark i).name = e.name := by
  rw [Entry.mark]
  split <;> rfl

theorem Entry.mark_position (e : Entry) (i : ℕ) (is : List ℕ) :
    (e.mark i).position.mark is = e.position.mark (i :: is) := by
  obtain ⟨idx, name, initialised⟩ := e
  rw [Entry.mark]
  dsimp only
  by_cases hidx : idx = i
  · have hmem : idx ∈ i :: is := hidx ▸ List.mem_cons_self
    rw [if_pos hidx]
    cases initialised
    · exact (if_pos hmem).symm
    · rfl
  · have hmem : idx ∈ i :: is ↔ idx ∈ is := List.mem_cons.trans (or_iff_right hidx)
    rw [if_neg hidx]
    cases initialised
    · exact (if_congr hmem rfl rfl).symm
    · rfl

namespace Frames

def markAll (is : List ℕ) (F : Frames) : Frames :=
  F.map (List.map fun e => is.foldl (fun e idx => e.mark idx) e)

theorem markAll_nil (F : Frames) : markAll [] F = F := by
  exact (List.map_congr_left fun frame _ => List.map_id frame).trans (List.map_id F)

theorem markAll_append (is js : List ℕ) (F : Frames) :
    markAll (is ++ js) F = markAll js (markAll is F) := by
  rw [markAll, markAll, markAll, List.map_map]
  refine List.map_congr_left fun frame _ => ?_
  rw [Function.comp_apply, List.map_map]
  exact List.map_congr_left fun e _ => List.foldl_append

/-- A step within a scope leaves the outer ones, except that locals are marked. -/
theorem step_cons {frame : List Entry} {outer F' : Frames} {op : Op Span} (hbegin : op ≠ .beginScope)
    (hend : op ≠ .endScope) (h : step (frame :: outer) op = some F') :
    ∃ frame', F' = frame' :: markAll (marks [op]) outer := by
  cases op with
  | beginScope => exact absurd rfl hbegin
  | endScope => exact absurd rfl hend
  | declareLocal name span =>
    cases h
    exact ⟨_, by rw [show marks [Op.declareLocal name span] = [] from rfl, markAll_nil]⟩
  | declarePhantom span initialised =>
    cases h
    exact ⟨_, by rw [show marks [Op.declarePhantom span initialised] = [] from rfl, markAll_nil]⟩
  | markInitialised idx =>
    rw [step] at h
    split at h
    · cases h
      exact ⟨_, rfl⟩
    · cases h

/-- A scope that is begun and ended leaves the others, except that locals are marked. -/
theorem run_scope {inner ops : List (Op Span)} {F F' : Frames}
    (hinner : ∀ {frame : List Entry} {outer F' : Frames}, run (frame :: outer) inner = some F' →
      ∃ frame', F' = frame' :: markAll (marks inner) outer)
    (h : run F (.beginScope :: (inner ++ .endScope :: ops)) = some F') :
    run (markAll (marks inner) F) ops = some F' := by
  rw [run, List.foldlM_cons] at h
  obtain ⟨F₁, hbegin, h⟩ := Option.bind_eq_some_iff.mp h
  cases hbegin
  rw [List.foldlM_append] at h
  obtain ⟨F₂, hrun, h⟩ := Option.bind_eq_some_iff.mp h
  obtain ⟨frame, rfl⟩ := hinner hrun
  rw [List.foldlM_cons] at h
  obtain ⟨F₃, hend, hrest⟩ := Option.bind_eq_some_iff.mp h
  rw [step] at hend
  split at hend
  · cases hend
  · cases hend
    exact hrest

/-- A balanced sequence leaves the outer scopes, except that locals are marked. -/
theorem run_balanced {ops : List (Op Span)} (hops : Balanced ops) {frame : List Entry}
    {outer F' : Frames} (h : run (frame :: outer) ops = some F') :
    ∃ frame', F' = frame' :: markAll (marks ops) outer := by
  induction hops generalizing frame outer F' with
  | nil =>
    cases h
    exact ⟨frame, by rw [show marks ([] : List (Op Span)) = [] from rfl, markAll_nil]⟩
  | @cons op ops hbegin hend _ ih =>
    rw [run, List.foldlM_cons] at h
    obtain ⟨F₁, hstep, hrest⟩ := Option.bind_eq_some_iff.mp h
    obtain ⟨frame₁, rfl⟩ := step_cons hbegin hend hstep
    obtain ⟨frame', rfl⟩ := ih hrest
    have hmarks : marks (op :: ops) = marks [op] ++ marks ops :=
      List.filterMap_append (l := [op])
    exact ⟨frame', by rw [hmarks, markAll_append]⟩
  | @scope inner ops _ _ ihInner ihOps =>
    obtain ⟨frame', rfl⟩ := ihOps (run_scope ihInner h)
    have hmarks : marks (.beginScope :: (inner ++ .endScope :: ops)) = marks inner ++ marks ops := by
      rw [marks, List.filterMap_cons_none rfl, List.filterMap_append, List.filterMap_cons_none rfl]
      rfl
    exact ⟨frame', by rw [hmarks, markAll_append]; rfl⟩

theorem resolve_markAll (is : List ℕ) (F : Frames) (name : Name) :
    (markAll is F).resolve name = (F.resolve name).mark is := by
  have hmark : ∀ e : Entry, (is.foldl (fun e idx => e.mark idx) e).name = e.name ∧
      (is.foldl (fun e idx => e.mark idx) e).position = e.position.mark is := by
    induction is with
    | nil => exact fun e => ⟨rfl, (LocalPosition.mark_nil _).symm⟩
    | cons i is ih =>
      intro e
      obtain ⟨hname, hposition⟩ := ih (e.mark i)
      rw [List.foldl_cons, hname, hposition]
      exact ⟨e.mark_name i, e.mark_position i is⟩
  have hflatten : (markAll is F).flatten =
      F.flatten.map fun e => is.foldl (fun e idx => e.mark idx) e := by
    rw [markAll, List.map_flatten]
  rw [resolve, resolve, hflatten, List.find?_map]
  have hname : ((fun e : Entry => decide (e.name = some name)) ∘
      fun e => is.foldl (fun e idx => e.mark idx) e) = fun e => decide (e.name = some name) := by
    funext e
    rw [Function.comp_apply, (hmark e).1]
  rw [hname]
  cases F.flatten.find? fun e => decide (e.name = some name) with
  | none => rfl
  | some e => exact (hmark e).2

end Frames

/-- As long as every scope that is ended was begun, and has a local that is older than it, names
    resolve to the newest local in scope that has them. A scope that was begun and is ended leaves
    all names where they were, except that locals may have been marked as initialised. -/
theorem resolves_newest (depth : ℕ) :
    (∀ (ops : List (Op Span)) F, Frames.run [[]] ops = some F →
      ∃ s, (Scope.start depth).run ops = some s ∧
        ∀ name, s.resolveLocal name = some (F.resolve name)) ∧
      ∀ (before inner : List (Op Span)) s s', Balanced inner →
        (Scope.start depth).run before = some s →
        (Scope.start depth).run (before ++ .beginScope :: (inner ++ [.endScope])) = some s' →
          ∀ name, s'.resolveLocal name = (s.resolveLocal name).map (.mark (marks inner)) := by
  have hstart : Simulates [[]] (Scope.start depth : Scope Span) := simulates_start depth
  refine ⟨fun ops F hF => ?_, fun before inner s s' hinner hs hs' name => ?_⟩
  · obtain ⟨F', s, hF', hs, hsim⟩ | ⟨hnone, -⟩ := hstart.run ops
    · rw [hF] at hF'
      cases hF'
      exact ⟨s, hs, hsim.resolve⟩
    · rw [hF] at hnone
      cases hnone
  · obtain ⟨F, s₁, hF, hs₁, hsim⟩ | ⟨-, hnone⟩ := hstart.run before
    · rw [hs] at hs₁
      cases hs₁
      have hrest : s.run (.beginScope :: (inner ++ [.endScope])) = some s' := by
        rw [Scope.run, List.foldlM_append] at hs'
        obtain ⟨s₂, hs₂, hs'⟩ := Option.bind_eq_some_iff.mp hs'
        rw [Scope.run, hs₂] at hs
        cases hs
        exact hs'
      obtain ⟨F', s₂, hF', hs₂, hsim'⟩ | ⟨-, hnone⟩ :=
        hsim.run (.beginScope :: (inner ++ [.endScope]))
      · rw [hrest] at hs₂
        cases hs₂
        have houter : F' = Frames.markAll (marks inner) F :=
          (Option.some.inj (Frames.run_scope (Frames.run_balanced hinner) hF')).symm
        rw [hsim'.resolve, hsim.resolve, houter, Frames.resolve_markAll, Option.map_some]
      · rw [hrest] at hnone
        cases hnone
    · rw [hs] at hnone
      cases hnone

/-- A local that is declared, marked in an inner scope, and a scope that has no older local. -/
theorem resolves_marked :
    ((Scope.start 0).run [Op.declareLocal (ascii "x") ()]).bind (Scope.resolveLocal · (ascii "x")) =
        some (.recursive 0) ∧
      ((Scope.start 0).run [Op.declareLocal (ascii "x") (), .beginScope, .markInitialised 0,
        .endScope]).bind (Scope.resolveLocal · (ascii "x")) = some (.known 0) ∧
      ((Scope.start 0).run [Op.beginScope, .endScope] : Option (Scope Unit)).isNone = true := by
  refine ⟨?_, ?_, ?_⟩
  all_goals decide

/-- A name that is shadowed in an inner scope. -/
theorem resolves_newest_shadowed :
    (∃ s, (Scope.start 0).run [Op.declareLocal (ascii "x") (), .beginScope,
        .declareLocal (ascii "x") ()] = some s ∧ s.resolveLocal (ascii "x") = some (.recursive 1)) ∧
      ∀ s s', (Scope.start 0).run [Op.declareLocal (ascii "x") ()] = some s →
        (Scope.start 0).run [Op.declareLocal (ascii "x") (), .beginScope,
          .declareLocal (ascii "x") (), .endScope] = some s' →
        s'.resolveLocal (ascii "x") = (s.resolveLocal (ascii "x")).map (.mark []) := by
  constructor
  · obtain ⟨s, hs, hresolve⟩ := (resolves_newest 0).1 [Op.declareLocal (ascii "x") (), .beginScope,
      .declareLocal (ascii "x") ()] _ rfl
    exact ⟨s, hs, hresolve (ascii "x")⟩
  · intro s s' hs hs'
    exact (resolves_newest 0).2 [.declareLocal (ascii "x") ()] [.declareLocal (ascii "x") ()] s s'
      (.cons nofun nofun .nil) hs hs' (ascii "x")

end Snix.Eval.Compiler
