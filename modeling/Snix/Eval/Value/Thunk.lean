import Snix.Eval.Value.Basic
import Mathlib.Data.List.Induction

/-!
# Thunks

A thunk is a cell that holds code or a value. When it is forced it is marked, its code
runs, and the value takes the place of the code. The value may be a thunk again: then
the loop goes on with that one and writes the value into all thunks of the chain at
the end, except where it holds the only reference to a thunk and can take what is in it.

The code that a thunk holds is a state of the machine that runs it. All that is fixed
is what code can do to thunks: make new ones, complete the ones that it has made, look
at them and force them.

## Main definitions

- `ThunkRepr`, `Heap` — what a thunk holds, and all thunks
- `Machine` — what runs the code
- `iterate`, `forceLoop`, `runCode` — one round of the loop, the loop, and the code that it enters
- `visits` — the thunks that a loop looks at
- `Heap.Later` — what a run that succeeds keeps

## Main results

- `iterate_rounds` — what a round of the loop can do
-/

namespace Snix.Eval

/-- What a thunk holds. Code that was suspended comes with the place where it was. -/
inductive ThunkRepr (Code Native : Type) where
  | suspended (code : Code) (span : Span)
  | native (native : Native)
  | blackhole (forcedAt : Span) (suspendedAt contentSpan : Option Span)
  | evaluated (value : Value)

/-- The value, if no thunk. -/
def Value.forced? : Value → Option Value
  | .thunk _ => none
  | v => some v

namespace ThunkRepr

variable {Code Native : Type}

/-- The value of a thunk that forcing does not change. -/
def forced? : ThunkRepr Code Native → Option Value
  | evaluated v => v.forced?
  | _ => none

/-- The thunk that this one points to. -/
def pointsTo : ThunkRepr Code Native → Option ℕ
  | evaluated (.thunk a) => some a
  | _ => none

end ThunkRepr

/-- The thunks by their addresses. A thunk that was taken apart is gone. -/
abbrev Heap (Code Native : Type) := List (Option (ThunkRepr Code Native))

namespace Heap

variable {Code Native : Type}

def get (h : Heap Code Native) (a : ℕ) : Option (ThunkRepr Code Native) := (h[a]?).join

def replace (h : Heap Code Native) (a : ℕ) (r : ThunkRepr Code Native) : Heap Code Native :=
  h.set a (some r)

def free (h : Heap Code Native) (a : ℕ) : Heap Code Native := h.set a none

/-- Some thunk points to this one. -/
def pointedTo (h : Heap Code Native) (a : ℕ) : Bool :=
  h.any fun cell => decide (cell.bind ThunkRepr.pointsTo = some a)

end Heap

/-- What code does next. -/
inductive Action (Code Native : Type) where
  | ret (v : Value)
  | fail (e : ErrorKind)
  | force (v : Value) (span : Span) (k : Value → Code)
  | newSuspended (code : Code) (span : Span) (k : ℕ → Code)
  | newNative (native : Native) (k : ℕ → Code)
  /-- A new thunk with a value, such as a closure. -/
  | newEvaluated (v : Value) (k : ℕ → Code)
  /-- The code of a suspended thunk gets the values that it was waiting for. -/
  | finalise (a : ℕ) (code : Code) (k : Code)
  | inspect (a : ℕ) (k : Option (ThunkRepr Code Native) → Code)
  | silent (k : Code)

/-- What runs the code of thunks. -/
structure Machine where
  Code : Type
  Native : Type
  firstSpan : Code → Span
  step : Code → Action Code Native
  /-- Native code may make new thunks, which get the next addresses. -/
  call : Native → Heap Code Native → Except ErrorKind (Value × List (ThunkRepr Code Native))
  /-- Code that waits, or something inside of a thunk, refers to the thunk. -/
  referenced : List Code → Heap Code Native → ℕ → Bool

/-- What waits for a loop to end: other loops, by their thunks, and the code that they run. -/
structure Waiting (M : Machine) where
  thunks : List ℕ
  codes : List M.Code

/-- Why forcing does not succeed: an error, a panic, or a reference that should have been counted. -/
inductive ForceFault where
  | error (e : ErrorKind)
  | panic
  | dangling

namespace Thunk

variable (M : Machine)

/-- The variables of the loop. -/
structure Loop where
  heap : Heap M.Code M.Native
  myself : ℕ
  alsoUpdate : List ℕ

/-- How a round of the loop ends. -/
inductive Round where
  | again (s : Loop M)
  | enterLambda (s : Loop M) (code : M.Code)
  | callNative (s : Loop M) (native : M.Native)
  | done (heap : Heap M.Code M.Native) (r : Except ForceFault Value)

/-- The mark of a thunk under evaluation. -/
def prepareBlackhole (forcedAt : Span) :
    ThunkRepr M.Code M.Native → ThunkRepr M.Code M.Native
  | .suspended code span => .blackhole forcedAt (some span) (some (M.firstSpan code))
  | _ => .blackhole forcedAt none none

/-- Nothing else refers to a thunk: no loop, no thunk that points to it, and nothing else. -/
def unique (held : Waiting M) (s : Loop M) (heap : Heap M.Code M.Native) (a : ℕ) : Bool :=
  !decide (a ∈ s.myself :: s.alsoUpdate ++ held.thunks) && !heap.pointedTo a &&
    !M.referenced held.codes heap a

/-- The round of a thunk that points to an inner one. Its own mark is in the heap. -/
def flatten (held : Waiting M) (s : Loop M) (heap : Heap M.Code M.Native) (inner : ℕ) : Round M :=
  match heap.get inner with
  | none => .done heap (.error .dangling)
  | some innerRepr =>
    if unique M held s heap inner then
      .again { s with heap := (heap.free inner).replace s.myself innerRepr }
    else
      match innerRepr.forced? with
      | some val => .again { s with heap := heap.replace s.myself (.evaluated val) }
      | none => .again ⟨heap, inner, s.alsoUpdate ++ [s.myself]⟩

/-- One round of the loop. -/
def iterate (held : Waiting M) (span : Span) (s : Loop M) : Round M :=
  match s.heap.get s.myself with
  | none => .done s.heap (.error .dangling)
  | some repr =>
    match repr.forced? with
    | some val =>
      .done (s.alsoUpdate.foldl (fun heap a => heap.replace a (.evaluated val)) s.heap) (.ok val)
    | none =>
      let heap := s.heap.replace s.myself (prepareBlackhole M span repr)
      match repr with
      | .blackhole forcedAt suspendedAt contentSpan =>
        .done heap (.error (.error (.infiniteRecursion forcedAt suspendedAt contentSpan)))
      | .native native => .callNative { s with heap := heap } native
      | .suspended code _ => .enterLambda { s with heap := heap } code
      | .evaluated (.thunk inner) => flatten M held s heap inner
      | .evaluated val => .done heap (.ok val)

/-- The loop waits for the code that it enters. -/
def Loop.waiting {M : Machine} (s : Loop M) (held : Waiting M) : Waiting M :=
  { held with thunks := s.myself :: s.alsoUpdate ++ held.thunks }

/-- The value of the code takes the place of the mark. -/
def Loop.resume {M : Machine} (s : Loop M) (heap : Heap M.Code M.Native) (v : Value) : Loop M :=
  { s with heap := heap.replace s.myself (.evaluated v) }

mutual

/-- The loop. None if there are more than the given number of steps. -/
def forceLoop : ℕ → Waiting M → Span → Loop M →
    Option (Heap M.Code M.Native × Except ForceFault Value)
  | 0, _, _, _ => none
  | n + 1, held, span, s =>
    match iterate M held span s with
    | .again s => forceLoop n held span s
    | .done heap r => some (heap, r)
    | .callNative s native =>
      match M.call native s.heap with
      | .error e => some (s.heap, .error (.error e))
      | .ok (v, new) => forceLoop n held span (s.resume (s.heap ++ new.map some) v)
    | .enterLambda s code =>
      match runCode n (s.waiting held) s.heap code with
      | none => none
      | some (heap, .error e) => some (heap, .error e)
      | some (heap, .ok v) => forceLoop n held span (s.resume heap v)

/-- Code that is entered. Everything that it forces is forced before it goes on. -/
def runCode : ℕ → Waiting M → Heap M.Code M.Native → M.Code →
    Option (Heap M.Code M.Native × Except ForceFault Value)
  | 0, _, _, _ => none
  | n + 1, held, heap, code =>
    match M.step code with
    | .ret v => some (heap, .ok v)
    | .fail e => some (heap, .error (.error e))
    | .force (.thunk a) span k =>
      match forceLoop n { held with codes := code :: held.codes } span ⟨heap, a, []⟩ with
      | none => none
      | some (heap, .error e) => some (heap, .error e)
      | some (heap, .ok v) => runCode n held heap (k v)
    | .force v _ k => runCode n held heap (k v)
    | .newSuspended code span k =>
      runCode n held (heap ++ [some (.suspended code span)]) (k heap.length)
    | .newNative native k => runCode n held (heap ++ [some (.native native)]) (k heap.length)
    | .newEvaluated v k => runCode n held (heap ++ [some (.evaluated v)]) (k heap.length)
    | .finalise a code k =>
      match heap.get a with
      | some (.suspended _ span) => runCode n held (heap.replace a (.suspended code span)) k
      | _ => some (heap, .error .panic)
    | .inspect a k => runCode n held heap (k (heap.get a))
    | .silent k => runCode n held heap k

end

/-- The thunks that a loop looks at, except for those that it takes apart. -/
def visits : ℕ → Waiting M → Span → Loop M → List ℕ
  | 0, _, _, _ => []
  | n + 1, held, span, s =>
    s.myself ::
      match iterate M held span s with
      | .again next =>
        (((s.heap.get s.myself).bind ThunkRepr.pointsTo).filter fun inner =>
          (next.heap.get inner).isSome).toList ++ visits n held span next
      | .done _ _ => []
      | .callNative s native =>
        match M.call native s.heap with
        | .error _ => []
        | .ok (v, new) => visits n held span (s.resume (s.heap ++ new.map some) v)
      | .enterLambda s code =>
        match runCode M n (s.waiting held) s.heap code with
        | some (heap, .ok v) => visits n held span (s.resume heap v)
        | _ => []

/-- The rounds of the loop that do not enter code. -/
def continues (held : Waiting M) (span : Span) : ℕ → Loop M → Option (Loop M)
  | 0, s => some s
  | k + 1, s =>
    match iterate M held span s with
    | .again s => continues held span k s
    | _ => none

end Thunk

-- ====================
-- Heaps
-- ====================

theorem Value.forced?_eq_some {v w : Value} (h : v.forced? = some w) : w = v ∧ v.forced? = some v := by
  cases v with
  | thunk a => cases h
  | _ =>
    cases h
    exact ⟨rfl, rfl⟩

theorem Value.eq_thunk_of_forced? {v : Value} (h : v.forced? = none) : ∃ a, v = .thunk a := by
  cases v with
  | thunk a => exact ⟨a, rfl⟩
  | _ => cases h

namespace ThunkRepr

variable {Code Native : Type} {r : ThunkRepr Code Native} {v : Value}

theorem forced?_eq_some (h : r.forced? = some v) : r = .evaluated v ∧ v.forced? = some v := by
  cases r with
  | evaluated w =>
    obtain ⟨rfl, hw⟩ := Value.forced?_eq_some h
    exact ⟨rfl, hw⟩
  | _ => cases h

end ThunkRepr

namespace Heap

variable {Code Native : Type} {h : Heap Code Native} {a b : ℕ} {r : ThunkRepr Code Native}

theorem lt_of_get (hr : h.get a = some r) : a < h.length := by
  by_contra hle
  rw [get, List.getElem?_eq_none (by omega)] at hr
  cases hr

@[simp] theorem length_replace : (h.replace a r).length = h.length := List.length_set

@[simp] theorem length_free : (h.free a).length = h.length := List.length_set

theorem get_replace_self (ha : a < h.length) : (h.replace a r).get a = some r := by
  rw [get, replace, List.getElem?_set_self ha]
  rfl

theorem get_replace_ne (hne : a ≠ b) : (h.replace b r).get a = h.get a := by
  rw [get, replace, List.getElem?_set_ne (Ne.symm hne)]
  rfl

theorem get_free_self : (h.free a).get a = none := by
  rw [get, free]
  by_cases ha : a < h.length
  · rw [List.getElem?_set_self ha]
    rfl
  · rw [List.getElem?_eq_none (by rw [List.length_set]; omega)]
    rfl

theorem get_free_ne (hne : a ≠ b) : (h.free b).get a = h.get a := by
  rw [get, free, List.getElem?_set_ne (Ne.symm hne)]
  rfl

theorem get_append {l : Heap Code Native} (ha : a < h.length) : (h ++ l).get a = h.get a := by
  rw [get, List.getElem?_append_left ha]
  rfl

/-- A value is written into some thunks. -/
theorem get_foldl_replace (l : List ℕ) (hl : ∀ b ∈ l, b < h.length) :
    (l.foldl (fun heap a => heap.replace a r) h).get a = if a ∈ l then some r else h.get a := by
  induction l generalizing h with
  | nil => rfl
  | cons b l ih =>
    have hl' : ∀ c ∈ l, c < (h.replace b r).length := by
      intro c hc
      rw [length_replace]
      exact hl c (List.mem_cons_of_mem b hc)
    rw [List.foldl_cons, ih hl']
    by_cases hal : a ∈ l
    · rw [if_pos hal, if_pos (List.mem_cons_of_mem b hal)]
    · rw [if_neg hal]
      by_cases hab : a = b
      · subst hab
        rw [get_replace_self (hl a List.mem_cons_self), if_pos List.mem_cons_self]
      · rw [get_replace_ne hab, if_neg]
        rw [List.mem_cons, not_or]
        exact ⟨hab, hal⟩

theorem length_foldl_replace (l : List ℕ) :
    (l.foldl (fun heap a => heap.replace a r) h).length = h.length := by
  induction l generalizing h with
  | nil => rfl
  | cons b l ih => rw [List.foldl_cons, ih, length_replace]

/-- The thunk is under evaluation. -/
def Marked (h : Heap Code Native) (a : ℕ) : Prop :=
  ∃ forcedAt suspendedAt contentSpan, h.get a = some (.blackhole forcedAt suspendedAt contentSpan)

theorem Marked.lt (hm : h.Marked a) : a < h.length := by
  obtain ⟨_, _, _, hm⟩ := hm
  exact lt_of_get hm

/-- What a run that succeeds does to thunks that are gone, are under evaluation or have their
    value, where those in the list were put under evaluation by the run itself. -/
structure Later (opened : List ℕ) (h h' : Heap Code Native) : Prop where
  length_le : h.length ≤ h'.length
  gone : ∀ a, a < h.length → h.get a = none → h'.get a = none
  marked : ∀ a, a ∉ opened → ∀ f s c, h.get a = some (.blackhole f s c) →
    h'.get a = some (.blackhole f s c)
  valued : ∀ a v, h.get a = some (.evaluated v) → v.forced? = some v →
    h'.get a = some (.evaluated v) ∨ h'.get a = none

theorem Later.refl (h : Heap Code Native) : Later [] h h where
  length_le := Nat.le_refl _
  gone _ _ hnone := hnone
  marked _ _ _ _ _ hm := hm
  valued _ _ hv _ := .inl hv

theorem Later.trans {opened : List ℕ} {h h' h'' : Heap Code Native} (h₁ : Later opened h h')
    (h₂ : Later opened h' h'') : Later opened h h'' where
  length_le := Nat.le_trans h₁.length_le h₂.length_le
  gone a ha hnone := h₂.gone a (Nat.lt_of_lt_of_le ha h₁.length_le) (h₁.gone a ha hnone)
  marked a ha f s c hm := h₂.marked a ha f s c (h₁.marked a ha f s c hm)
  valued a v hv hforced := by
    obtain hv' | hnone := h₁.valued a v hv hforced
    · exact h₂.valued a v hv' hforced
    · exact .inr (h₂.gone a (Nat.lt_of_lt_of_le (lt_of_get hv) h₁.length_le) hnone)

theorem Later.mono {opened opened' : List ℕ} {h h' : Heap Code Native} (hl : Later opened h h')
    (hsub : opened ⊆ opened') : Later opened' h h' :=
  { hl with marked := fun a ha => hl.marked a fun hmem => ha (hsub hmem) }

theorem Later.of_not_marked {opened : List ℕ} {h h' : Heap Code Native}
    (hl : Later (a :: opened) h h') (ha : ¬h.Marked a) : Later opened h h' :=
  { hl with
    marked := fun b hb f s c hm => by
      apply hl.marked b _ f s c hm
      rw [List.mem_cons, not_or]
      refine ⟨?_, hb⟩
      rintro rfl
      exact ha ⟨f, s, c, hm⟩ }

/-- A thunk that is neither gone nor marked nor evaluated to a value may be replaced. -/
theorem Later.replace {opened : List ℕ} (ha : a ∈ opened ∨ ¬h.Marked a) (hr : h.get a ≠ none)
    (hvalue : ∀ v, h.get a = some (.evaluated v) → v.forced? = none) :
    Later opened h (h.replace a r) := by
  refine ⟨Nat.le_of_eq length_replace.symm, fun b hb hnone => ?_, fun b hb f s c hm => ?_,
    fun b v hv hforced => ?_⟩
  · have hne : b ≠ a := by
      rintro rfl
      exact hr hnone
    rw [get_replace_ne hne]
    exact hnone
  · have hne : b ≠ a := by
      rintro rfl
      exact ha.elim hb fun hnot => hnot ⟨f, s, c, hm⟩
    rw [get_replace_ne hne]
    exact hm
  · have hne : b ≠ a := by
      rintro rfl
      rw [hvalue v hv] at hforced
      cases hforced
    rw [get_replace_ne hne]
    exact .inl hv

theorem Later.free (ha : ¬h.Marked a) : Later [] h (h.free a) where
  length_le := Nat.le_of_eq length_free.symm
  gone b _ hnone := by
    by_cases hne : b = a
    · subst hne
      exact get_free_self
    · rw [get_free_ne hne, hnone]
  marked b _ f s c hm := by
    have hne : b ≠ a := by
      rintro rfl
      exact ha ⟨f, s, c, hm⟩
    rw [get_free_ne hne, hm]
  valued b v hv _ := by
    by_cases hne : b = a
    · subst hne
      exact .inr get_free_self
    · exact .inl (by rw [get_free_ne hne, hv])

theorem Later.append (l : Heap Code Native) : Later [] h (h ++ l) where
  length_le := by
    rw [List.length_append]
    omega
  gone a ha hnone := by rw [get_append ha, hnone]
  marked a _ f s c hm := by rw [get_append (lt_of_get hm), hm]
  valued a v hv _ := .inl (by rw [get_append (lt_of_get hv), hv])

end Heap

-- ====================
-- Rounds
-- ====================

namespace Thunk

variable {M : Machine} {held : Waiting M} {span : Span} {s : Loop M}

/-- The heap while a round is under way. -/
def Loop.markMyself (span : Span) (s : Loop M) (repr : ThunkRepr M.Code M.Native) :
    Heap M.Code M.Native :=
  s.heap.replace s.myself (prepareBlackhole M span repr)

/-- What a round can do. -/
inductive Rounds (held : Waiting M) (span : Span) (s : Loop M) : Round M → Prop
  | gone (h : s.heap.get s.myself = none) :
    Rounds held span s (.done s.heap (.error .dangling))
  | forced (v : Value) (h : s.heap.get s.myself = some (.evaluated v)) (hv : v.forced? = some v) :
    Rounds held span s
      (.done (s.alsoUpdate.foldl (fun heap a => heap.replace a (.evaluated v)) s.heap) (.ok v))
  | blackhole (f : Span) (d c : Option Span) (h : s.heap.get s.myself = some (.blackhole f d c)) :
    Rounds held span s
      (.done (s.markMyself span (.blackhole f d c)) (.error (.error (.infiniteRecursion f d c))))
  | native (n : M.Native) (h : s.heap.get s.myself = some (.native n)) :
    Rounds held span s (.callNative { s with heap := s.markMyself span (.native n) } n)
  | suspended (code : M.Code) (at' : Span)
    (h : s.heap.get s.myself = some (.suspended code at')) :
    Rounds held span s
      (.enterLambda { s with heap := s.markMyself span (.suspended code at') } code)
  | innerGone (inner : ℕ) (h : s.heap.get s.myself = some (.evaluated (.thunk inner)))
    (hi : (s.markMyself span (.evaluated (.thunk inner))).get inner = none) :
    Rounds held span s (.done (s.markMyself span (.evaluated (.thunk inner))) (.error .dangling))
  | steal (inner : ℕ) (r : ThunkRepr M.Code M.Native)
    (h : s.heap.get s.myself = some (.evaluated (.thunk inner)))
    (hi : (s.markMyself span (.evaluated (.thunk inner))).get inner = some r)
    (hu : unique M held s (s.markMyself span (.evaluated (.thunk inner))) inner = true) :
    Rounds held span s (.again
      { s with
        heap := ((s.markMyself span (.evaluated (.thunk inner))).free inner).replace s.myself r })
  | copy (inner : ℕ) (v : Value) (h : s.heap.get s.myself = some (.evaluated (.thunk inner)))
    (hi : (s.markMyself span (.evaluated (.thunk inner))).get inner = some (.evaluated v))
    (hv : v.forced? = some v) :
    Rounds held span s (.again
      { s with
        heap := (s.markMyself span (.evaluated (.thunk inner))).replace s.myself (.evaluated v) })
  | follow (inner : ℕ) (r : ThunkRepr M.Code M.Native)
    (h : s.heap.get s.myself = some (.evaluated (.thunk inner)))
    (hi : (s.markMyself span (.evaluated (.thunk inner))).get inner = some r)
    (hr : r.forced? = none) :
    Rounds held span s (.again
      ⟨s.markMyself span (.evaluated (.thunk inner)), inner, s.alsoUpdate ++ [s.myself]⟩)

theorem flatten_rounds {inner : ℕ} (h : s.heap.get s.myself = some (.evaluated (.thunk inner))) :
    Rounds held span s
      (flatten M held s (s.markMyself span (.evaluated (.thunk inner))) inner) := by
  unfold flatten
  cases hi : (s.markMyself span (.evaluated (.thunk inner))).get inner with
  | none => exact .innerGone inner h hi
  | some r =>
    dsimp only
    by_cases hu : unique M held s (s.markMyself span (.evaluated (.thunk inner))) inner = true
    · rw [if_pos hu]
      exact .steal inner r h hi hu
    · rw [if_neg hu]
      cases hr : r.forced? with
      | some v =>
        obtain ⟨rfl, hv⟩ := ThunkRepr.forced?_eq_some hr
        exact .copy inner v h hi hv
      | none => exact .follow inner r h hi hr

theorem iterate_rounds : Rounds held span s (iterate M held span s) := by
  unfold iterate
  cases h : s.heap.get s.myself with
  | none => exact .gone h
  | some r =>
    dsimp only
    cases hr : r.forced? with
    | some v =>
      obtain ⟨rfl, hv⟩ := ThunkRepr.forced?_eq_some hr
      exact .forced v h hv
    | none =>
      cases r with
      | suspended code at' => exact .suspended code at' h
      | native n => exact .native n h
      | blackhole f d c => exact .blackhole f d c h
      | evaluated v =>
        obtain ⟨inner, rfl⟩ := Value.eq_thunk_of_forced? hr
        exact flatten_rounds h

end Thunk

end Snix.Eval
