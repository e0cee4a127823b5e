import Snix.Eval.Value.Thunk
import Mathlib.Logic.Relation

/-!
# Forcing a chain of thunks

The loop keeps one invariant: all thunks that it is going to write to are marked, so that
nothing else can change them until then. What it leaves behind follows by induction on the
steps, together with what the code that it enters leaves behind.

## Main results

- `forceLoop_forced` — what a loop that succeeds leaves behind
- `forceLoop_of_trap` — a chain that leads back to a thunk under evaluation
- `continues_le` — the loop cannot go around more often than there are links
- `force_consistent` — all of this for a thunk that is forced
-/

namespace Snix.Eval

namespace Thunk

variable {M : Machine} {held : Waiting M} {span : Span} {s : Loop M} {n : ℕ}
  {h' : Heap M.Code M.Native} {v : Value}

open Heap (Later Marked)

-- ====================
-- The mark
-- ====================

theorem Loop.marked_markMyself (span : Span) {r : ThunkRepr M.Code M.Native}
    (h : s.heap.get s.myself = some r) :
    (s.markMyself span r).Marked s.myself := by
  have hget : (s.markMyself span r).get s.myself = some (prepareBlackhole M span r) :=
    Heap.get_replace_self (Heap.lt_of_get h)
  cases r with
  | suspended code at' => exact ⟨_, _, _, hget⟩
  | _ => exact ⟨_, _, _, hget⟩

theorem Loop.later_markMyself (span : Span) {r : ThunkRepr M.Code M.Native} (h : s.heap.get s.myself = some r)
    (hr : r.forced? = none) (hm : ¬s.heap.Marked s.myself) :
    Later [] s.heap (s.markMyself span r) := by
  apply Later.replace (.inr hm)
  · rw [h]
    exact Option.some_ne_none r
  · intro v hv
    rw [h] at hv
    cases hv
    exact hr

/-- All thunks that the loop is going to write to are marked. -/
def Loop.Opened (s : Loop M) : Prop := ∀ b ∈ s.alsoUpdate, s.heap.Marked b

theorem Loop.opened_nil (heap : Heap M.Code M.Native) (a : ℕ) :
    Loop.Opened (M := M) ⟨heap, a, []⟩ :=
  fun _ hb => absurd hb List.not_mem_nil

theorem Loop.Opened.later {h₁ : Heap M.Code M.Native} (hs : s.Opened) (hl : Later [] s.heap h₁) :
    ∀ b ∈ s.alsoUpdate, h₁.Marked b := by
  intro b hb
  obtain ⟨f, d, c, hm⟩ := hs b hb
  exact ⟨f, d, c, hl.marked b List.not_mem_nil f d c hm⟩

/-- A new content of the current thunk does not touch the others. -/
theorem Loop.Opened.replace {h₁ : Heap M.Code M.Native} {r : ThunkRepr M.Code M.Native}
    (hs : s.Opened) (hm : ¬s.heap.Marked s.myself) (hl : Later [] s.heap h₁) :
    Loop.Opened (M := M) ⟨h₁.replace s.myself r, s.myself, s.alsoUpdate⟩ := by
  intro b hb
  obtain ⟨f, d, c, hmark⟩ := hs.later hl b hb
  have hne : b ≠ s.myself := by
    rintro rfl
    exact hm (hs _ hb)
  exact ⟨f, d, c, (Heap.get_replace_ne hne).trans hmark⟩

-- ====================
-- What a loop that succeeds leaves behind
-- ====================

/-- The thunks on the way have the value, and it is no thunk. -/
structure Forced (s : Loop M) (visited : List ℕ) (h' : Heap M.Code M.Native) (v : Value) :
    Prop where
  value : v.forced? = some v
  later : Later s.alsoUpdate s.heap h'
  written : ∀ b ∈ s.myself :: s.alsoUpdate, h'.get b = some (.evaluated v)
  visited : ∀ b ∈ visited, h'.get b = some (.evaluated v)

theorem Loop.Opened.get_foldl_replace (hs : s.Opened) (r : ThunkRepr M.Code M.Native) (b : ℕ) :
    Heap.get (s.alsoUpdate.foldl (fun heap a => Heap.replace heap a r) s.heap) b =
      if b ∈ s.alsoUpdate then some r else s.heap.get b :=
  Heap.get_foldl_replace s.alsoUpdate fun b hb => (hs b hb).lt

theorem forced_done (hs : s.Opened) (h : s.heap.get s.myself = some (.evaluated v))
    (hv : v.forced? = some v) :
    Forced s [s.myself]
      (s.alsoUpdate.foldl (fun heap a => heap.replace a (.evaluated v)) s.heap) v := by
  have hget := hs.get_foldl_replace (.evaluated v)
  have hmyself : ∀ b ∈ s.myself :: s.alsoUpdate,
      (s.alsoUpdate.foldl (fun heap a => heap.replace a (.evaluated v)) s.heap).get b =
        some (.evaluated v) := by
    intro b hb
    rw [hget]
    by_cases hmem : b ∈ s.alsoUpdate
    · rw [if_pos hmem]
    · rw [if_neg hmem]
      obtain rfl | hb := List.mem_cons.mp hb
      · exact h
      · exact absurd hb hmem
  refine ⟨hv, ⟨?_, fun b hb hnone => ?_, fun b hb f d c hm => ?_, fun b w hw hforced => ?_⟩,
    hmyself, fun b hb => ?_⟩
  · exact Nat.le_of_eq (Heap.length_foldl_replace s.alsoUpdate).symm
  · rw [hget, if_neg, hnone]
    intro hmem
    obtain ⟨f, d, c, hm⟩ := hs b hmem
    rw [hnone] at hm
    cases hm
  · rw [hget, if_neg hb, hm]
  · rw [hget, if_neg]
    · exact .inl hw
    · intro hmem
      obtain ⟨f, d, c, hm⟩ := hs b hmem
      rw [hw] at hm
      cases hm
  · apply hmyself
    rw [List.mem_singleton.mp hb]
    exact List.mem_cons_self

/-- The current thunk was marked, something happened, and it got new content. -/
theorem Forced.of_replace {r r' : ThunkRepr M.Code M.Native} {h₁ : Heap M.Code M.Native}
    {visited : List ℕ} (h : s.heap.get s.myself = some r) (hr : r.forced? = none)
    (hm : ¬s.heap.Marked s.myself) (hl : Later [] (s.markMyself span r) h₁)
    (hf : Forced (M := M) ⟨h₁.replace s.myself r', s.myself, s.alsoUpdate⟩ visited h' v) :
    Forced s (s.myself :: visited) h' v := by
  obtain ⟨f, d, c, hmark⟩ := Loop.marked_markMyself span h
  have hmark₁ : h₁.get s.myself = some (.blackhole f d c) :=
    hl.marked s.myself List.not_mem_nil f d c hmark
  have hlater : Later (s.myself :: s.alsoUpdate) s.heap h' := by
    have hl₁ := (Loop.later_markMyself span h hr hm).trans hl
    apply (hl₁.mono (List.nil_subset _)).trans
    apply Later.trans _ (hf.later.mono (List.subset_cons_self _ _))
    apply Later.replace (.inl List.mem_cons_self)
    · rw [hmark₁]
      exact Option.some_ne_none _
    · intro w hw
      rw [hmark₁] at hw
      cases hw
  refine ⟨hf.value, hlater.of_not_marked hm, hf.written, fun b hb => ?_⟩
  obtain rfl | hb := List.mem_cons.mp hb
  · exact hf.written s.myself List.mem_cons_self
  · exact hf.visited b hb


theorem forceLoop_evaluated (h : s.heap.get s.myself = some (.evaluated v))
    (hv : v.forced? = some v) {w : Value} (hf : forceLoop M n held span s = some (h', .ok w)) :
    w = v ∧
      h' = s.alsoUpdate.foldl (fun heap a => heap.replace a (.evaluated v)) s.heap ∧
      visits M n held span s = [s.myself] := by
  cases n with
  | zero => cases hf
  | succ n =>
    have hround : iterate M held span s =
        .done (s.alsoUpdate.foldl (fun heap a => heap.replace a (.evaluated v)) s.heap) (.ok v) := by
      simp only [iterate, h, ThunkRepr.forced?, hv]
    rw [forceLoop, hround] at hf
    cases hf
    refine ⟨rfl, rfl, ?_⟩
    rw [visits, hround]

theorem forceLoop_marked (hm : s.heap.Marked s.myself) :
    forceLoop M n held span s ≠ some (h', .ok v) := by
  obtain ⟨f, d, c, hm⟩ := hm
  intro hf
  cases n with
  | zero => cases hf
  | succ n =>
    simp only [forceLoop, iterate, hm, ThunkRepr.forced?] at hf
    cases hf

/-- What the loops of one step less leave behind. -/
def ForcedWithin (M : Machine) (n : ℕ) : Prop :=
  ∀ (held : Waiting M) (span : Span) (s : Loop M) (h' : Heap M.Code M.Native) (v : Value),
    s.Opened → forceLoop M n held span s = some (h', .ok v) →
      Forced s (visits M n held span s) h' v

def LaterWithin (M : Machine) (n : ℕ) : Prop :=
  ∀ (held : Waiting M) (h h' : Heap M.Code M.Native) (code : M.Code) (v : Value),
    runCode M n held h code = some (h', .ok v) → Later [] h h'

theorem forced_steal {inner : ℕ} {r : ThunkRepr M.Code M.Native} (ih : ForcedWithin M n)
    (hs : s.Opened) (h : s.heap.get s.myself = some (.evaluated (.thunk inner)))
    (hi : (s.markMyself span (.evaluated (.thunk inner))).get inner = some r)
    (hf : forceLoop M n held span
      { s with
        heap := ((s.markMyself span (.evaluated (.thunk inner))).free inner).replace s.myself r } =
        some (h', .ok v)) :
    Forced s (s.myself :: visits M n held span
      { s with
        heap := ((s.markMyself span (.evaluated (.thunk inner))).free inner).replace s.myself r })
      h' v := by
  have hm : ¬s.heap.Marked s.myself := by
    rintro ⟨f, d, c, hm⟩
    rw [h] at hm
    cases hm
  have hlt : s.myself < ((s.markMyself span (.evaluated (.thunk inner))).free inner).length := by
    rw [Heap.length_free, Loop.markMyself, Heap.length_replace]
    exact Heap.lt_of_get h
  -- a marked thunk that is taken over ends the loop
  have hinner : ¬(s.markMyself span (.evaluated (.thunk inner))).Marked inner := by
    rintro ⟨f, d, c, hmark⟩
    rw [hi] at hmark
    cases hmark
    exact forceLoop_marked ⟨f, d, c, Heap.get_replace_self hlt⟩ hf
  have hl : Later [] (s.markMyself span (.evaluated (.thunk inner)))
      ((s.markMyself span (.evaluated (.thunk inner))).free inner) := Later.free hinner
  have hlater := (Loop.later_markMyself span h rfl hm).trans hl
  apply Forced.of_replace h rfl hm hl
  exact ih held span _ h' v (hs.replace hm hlater) hf

theorem forced_copy {inner : ℕ} {w : Value} (hs : s.Opened)
    (h : s.heap.get s.myself = some (.evaluated (.thunk inner)))
    (hi : (s.markMyself span (.evaluated (.thunk inner))).get inner = some (.evaluated w))
    (hw : w.forced? = some w)
    (hf : forceLoop M n held span
      { s with
        heap := (s.markMyself span (.evaluated (.thunk inner))).replace s.myself (.evaluated w) } =
        some (h', .ok v)) :
    Forced s (s.myself :: inner :: visits M n held span
      { s with
        heap := (s.markMyself span (.evaluated (.thunk inner))).replace s.myself (.evaluated w) })
      h' v := by
  have hm : ¬s.heap.Marked s.myself := by
    rintro ⟨f, d, c, hm⟩
    rw [h] at hm
    cases hm
  have hlt : s.myself < (s.markMyself span (.evaluated (.thunk inner))).length := by
    rw [Loop.markMyself, Heap.length_replace]
    exact Heap.lt_of_get h
  have hne : inner ≠ s.myself := by
    rintro rfl
    obtain ⟨f, d, c, hmark⟩ := Loop.marked_markMyself span h
    rw [hmark] at hi
    cases hi
  have hlater := Loop.later_markMyself span h rfl hm
  have hopened : Loop.Opened (M := M) ⟨(s.markMyself span (.evaluated (.thunk inner))).replace
      s.myself (.evaluated w), s.myself, s.alsoUpdate⟩ := hs.replace hm hlater
  have hself := Heap.get_replace_self (r := ThunkRepr.evaluated w) hlt
  obtain ⟨rfl, rfl, hvisits⟩ := forceLoop_evaluated hself hw hf
  have hdone := forced_done hopened hself hw
  have hforced := Forced.of_replace h rfl hm (Later.refl _) hdone
  refine { hforced with visited := fun b hb => ?_ }
  rw [hvisits] at hb
  obtain rfl | hb := List.mem_cons.mp hb
  · exact hforced.written s.myself List.mem_cons_self
  obtain rfl | hb := List.mem_cons.mp hb
  · rw [hopened.get_foldl_replace]
    split
    · rfl
    · exact (Heap.get_replace_ne hne).trans hi
  · exact hdone.visited b hb

theorem forced_follow {inner : ℕ} (ih : ForcedWithin M n) (hs : s.Opened)
    (h : s.heap.get s.myself = some (.evaluated (.thunk inner)))
    (hf : forceLoop M n held span
      ⟨s.markMyself span (.evaluated (.thunk inner)), inner, s.alsoUpdate ++ [s.myself]⟩ =
        some (h', .ok v)) :
    Forced s (s.myself :: inner :: visits M n held span
      ⟨s.markMyself span (.evaluated (.thunk inner)), inner, s.alsoUpdate ++ [s.myself]⟩) h' v := by
  have hm : ¬s.heap.Marked s.myself := by
    rintro ⟨f, d, c, hm⟩
    rw [h] at hm
    cases hm
  have hlater := Loop.later_markMyself span h rfl hm
  have hmark := Loop.marked_markMyself span h
  have hopened : Loop.Opened (M := M) ⟨s.markMyself span (.evaluated (.thunk inner)), inner,
      s.alsoUpdate ++ [s.myself]⟩ := by
    intro b hb
    obtain hb | hb := List.mem_append.mp hb
    · exact hs.later hlater b hb
    · rw [List.mem_singleton.mp hb]
      exact hmark
  have hnext := ih held span _ h' v hopened hf
  have hwritten : ∀ b ∈ s.myself :: s.alsoUpdate, h'.get b = some (.evaluated v) := by
    intro b hb
    apply hnext.written b
    obtain rfl | hb := List.mem_cons.mp hb
    · exact List.mem_cons_of_mem _ (List.mem_append_right _ (List.mem_singleton_self _))
    · exact List.mem_cons_of_mem _ (List.mem_append_left _ hb)
  refine ⟨hnext.value, ?_, hwritten, fun b hb => ?_⟩
  · apply Later.of_not_marked _ hm
    apply (hlater.mono (List.nil_subset _)).trans
    apply hnext.later.mono
    intro b hb
    obtain hb | hb := List.mem_append.mp hb
    · exact List.mem_cons_of_mem _ hb
    · rw [List.mem_singleton.mp hb]
      exact List.mem_cons_self
  · obtain rfl | hb := List.mem_cons.mp hb
    · exact hwritten s.myself List.mem_cons_self
    obtain rfl | hb := List.mem_cons.mp hb
    · exact hnext.written b List.mem_cons_self
    · exact hnext.visited b hb

/-- The thunk that a round visits after its own, if it is there, and those of the rest. -/
theorem visits_subset_of {inner : ℕ} {next : Loop M} {rest l : List ℕ}
    (h : s.heap.get s.myself = some (.evaluated (.thunk inner)))
    (hinner : (next.heap.get inner).isSome = true → inner ∈ l) (hrest : rest ⊆ l) :
    s.myself :: ((((s.heap.get s.myself).bind ThunkRepr.pointsTo).filter fun inner =>
      (next.heap.get inner).isSome).toList ++ rest) ⊆ s.myself :: l := by
  intro b hb
  obtain rfl | hb := List.mem_cons.mp hb
  · exact List.mem_cons_self
  apply List.mem_cons_of_mem
  obtain hb | hb := List.mem_append.mp hb
  · rw [Option.mem_toList, Option.filter_eq_some_iff, h] at hb
    cases hb.1
    exact hinner hb.2
  · exact hrest hb

/-- The inner thunk that a round takes apart is not visited. -/
theorem visits_subset {inner : ℕ} {next : Loop M} {rest : List ℕ}
    (h : s.heap.get s.myself = some (.evaluated (.thunk inner))) :
    s.myself :: ((((s.heap.get s.myself).bind ThunkRepr.pointsTo).filter fun inner =>
      (next.heap.get inner).isSome).toList ++ rest) ⊆ s.myself :: inner :: rest :=
  visits_subset_of h (fun _ => List.mem_cons_self) (List.subset_cons_self inner rest)

theorem visits_steal {inner : ℕ} {next : Loop M} {rest : List ℕ}
    (h : s.heap.get s.myself = some (.evaluated (.thunk inner))) (hn : next.heap.get inner = none) :
    s.myself :: ((((s.heap.get s.myself).bind ThunkRepr.pointsTo).filter fun inner =>
      (next.heap.get inner).isSome).toList ++ rest) ⊆ s.myself :: rest := by
  refine visits_subset_of h (fun hsome => ?_) (List.Subset.refl rest)
  rw [hn] at hsome
  cases hsome

theorem Forced.mono {vs vs' : List ℕ} (hf : Forced s vs h' v) (hsub : vs' ⊆ vs) :
    Forced s vs' h' v :=
  { hf with visited := fun b hb => hf.visited b (hsub hb) }

theorem not_mem_of_unique {heap : Heap M.Code M.Native} {inner : ℕ}
    (hu : unique M held s heap inner = true) :
    inner ∉ s.myself :: s.alsoUpdate ++ held.thunks := by
  rw [unique, Bool.and_eq_true, Bool.and_eq_true, Bool.not_eq_true', decide_eq_false_iff_not] at hu
  exact hu.1.1

theorem ne_of_unique {heap : Heap M.Code M.Native} {inner : ℕ}
    (hu : unique M held s heap inner = true) : inner ≠ s.myself := by
  rintro rfl
  exact not_mem_of_unique hu List.mem_cons_self

/-- One step: the rounds that enter code rely on what the code leaves behind. -/
theorem forcedWithin_succ (ih : ForcedWithin M n) (ihCode : LaterWithin M n) :
    ForcedWithin M (n + 1) := by
  intro held span s h' v hs hf
  rw [forceLoop] at hf
  rw [visits]
  have hround := @iterate_rounds M held span s
  generalize iterate M held span s = round at hf hround ⊢
  cases hround with
  | gone h => cases hf
  | forced w h hw =>
    cases hf
    exact forced_done hs h hw
  | blackhole f d c h => cases hf
  | innerGone inner h hi => cases hf
  | native native h =>
    have hm : ¬s.heap.Marked s.myself := by
      rintro ⟨f, d, c, hm⟩
      rw [h] at hm
      cases hm
    dsimp only at hf ⊢
    cases hcall : M.call native (s.markMyself span (.native native)) with
    | error e =>
      rw [hcall] at hf
      cases hf
    | ok result =>
      rw [hcall] at hf
      have hl : Later [] (s.markMyself span (.native native)) _ := Later.append (result.2.map some)
      apply Forced.of_replace h rfl hm hl
      exact ih held span _ h' v (hs.replace hm ((Loop.later_markMyself span h rfl hm).trans hl)) hf
  | suspended code at' h =>
    have hm : ¬s.heap.Marked s.myself := by
      rintro ⟨f, d, c, hm⟩
      rw [h] at hm
      cases hm
    dsimp only at hf ⊢
    cases hrun : runCode M n (Loop.waiting { s with heap := s.markMyself span (.suspended code at') }
        held) (s.markMyself span (.suspended code at')) code with
    | none =>
      rw [hrun] at hf
      cases hf
    | some result =>
      obtain ⟨heap, e | w⟩ := result
      · rw [hrun] at hf
        cases hf
      · rw [hrun] at hf
        have hl := ihCode _ _ _ _ _ hrun
        apply Forced.of_replace h rfl hm hl
        exact ih held span _ h' v (hs.replace hm ((Loop.later_markMyself span h rfl hm).trans hl)) hf
  | steal inner r h hi hu =>
    apply (forced_steal ih hs h hi hf).mono
    apply visits_steal h
    rw [Heap.get_replace_ne (ne_of_unique hu)]
    exact Heap.get_free_self
  | copy inner w h hi hw => exact (forced_copy hs h hi hw hf).mono (visits_subset h)
  | follow inner r h hi hr => exact (forced_follow ih hs h hf).mono (visits_subset h)

theorem laterWithin_succ (ih : ForcedWithin M n) (ihCode : LaterWithin M n) :
    LaterWithin M (n + 1) := by
  intro held h h' code v hrun
  rw [runCode] at hrun
  cases hstep : M.step code with
  | ret w =>
    rw [hstep] at hrun
    cases hrun
    exact Later.refl h
  | fail e =>
    rw [hstep] at hrun
    cases hrun
  | force w span k =>
    rw [hstep] at hrun
    cases w with
    | thunk a =>
      dsimp only at hrun
      cases hforce : forceLoop M n { held with codes := code :: held.codes } span ⟨h, a, []⟩ with
      | none =>
        rw [hforce] at hrun
        cases hrun
      | some result =>
        obtain ⟨heap, e | w⟩ := result
        · rw [hforce] at hrun
          cases hrun
        · rw [hforce] at hrun
          have hf := ih _ _ _ _ _ (Loop.opened_nil h a) hforce
          exact hf.later.trans (ihCode _ _ _ _ _ hrun)
    | _ => exact ihCode _ _ _ _ _ hrun
  | newSuspended code span k =>
    rw [hstep] at hrun
    exact (Later.append _).trans (ihCode _ _ _ _ _ hrun)
  | newNative native k =>
    rw [hstep] at hrun
    exact (Later.append _).trans (ihCode _ _ _ _ _ hrun)
  | newEvaluated w k =>
    rw [hstep] at hrun
    exact (Later.append _).trans (ihCode _ _ _ _ _ hrun)
  | finalise a code k =>
    rw [hstep] at hrun
    dsimp only at hrun
    cases ha : h.get a with
    | none =>
      rw [ha] at hrun
      cases hrun
    | some r =>
      rw [ha] at hrun
      cases r with
      | suspended old span =>
        apply Later.trans _ (ihCode _ _ _ _ _ hrun)
        apply Later.replace
        · right
          rintro ⟨f, d, c, hm⟩
          rw [ha] at hm
          cases hm
        · rw [ha]
          exact Option.some_ne_none _
        · intro w hw
          rw [ha] at hw
          cases hw
      | _ => cases hrun
  | inspect a k =>
    rw [hstep] at hrun
    exact ihCode _ _ _ _ _ hrun
  | silent k =>
    rw [hstep] at hrun
    exact ihCode _ _ _ _ _ hrun

theorem within (M : Machine) : ∀ n, ForcedWithin M n ∧ LaterWithin M n
  | 0 => by
    constructor
    · intro held span s h' v _ hf
      cases hf
    · intro held h h' code v hrun
      cases hrun
  | n + 1 => by
    obtain ⟨ih, ihCode⟩ := within M n
    exact ⟨forcedWithin_succ ih ihCode, laterWithin_succ ih ihCode⟩

/-- What a loop that succeeds leaves behind. -/
theorem forceLoop_forced (hs : s.Opened) (hf : forceLoop M n held span s = some (h', .ok v)) :
    Forced s (visits M n held span s) h' v :=
  (within M n).1 held span s h' v hs hf

-- ====================
-- Links
-- ====================

end Thunk

namespace Heap

variable {Code Native : Type} {h : Heap Code Native} {a b : ℕ} {r r' : ThunkRepr Code Native}

/-- The thunk that is next on the chain. -/
def link (h : Heap Code Native) (a : ℕ) : Option ℕ := (h.get a).bind ThunkRepr.pointsTo

def isLink (cell : Option (ThunkRepr Code Native)) : Bool := (cell.bind ThunkRepr.pointsTo).isSome

/-- The number of thunks that point to thunks. -/
def links (h : Heap Code Native) : ℕ := h.countP isLink

/-- A chain leads back: to a thunk under evaluation, or around. -/
def LeadsBack (h : Heap Code Native) (a : ℕ) : Prop :=
  ∃ b, Relation.ReflTransGen (fun x y => h.link x = some y) a b ∧
    (h.Marked b ∨ Relation.TransGen (fun x y => h.link x = some y) b b)

theorem getElem_of_get (hr : h.get a = some r) (ha : a < h.length) : h[a] = some r := by
  rw [get, List.getElem?_eq_getElem ha, Option.join_some] at hr
  exact hr

theorem links_set (hr : h.get a = some r) (cell : Option (ThunkRepr Code Native)) :
    links (h.set a cell) + (if isLink (some r) then 1 else 0) =
      h.links + if isLink cell then 1 else 0 := by
  have hpos : isLink (some r) = true → 0 < h.countP isLink := by
    intro hl
    apply List.countP_pos_iff.mpr
    refine ⟨some r, ?_, hl⟩
    rw [← getElem_of_get hr (lt_of_get hr)]
    exact List.getElem_mem _
  rw [links, links, List.countP_set (lt_of_get hr), getElem_of_get hr (lt_of_get hr)]
  split
  · have := hpos ‹_›
    omega
  · omega

theorem pointedTo_of_link (hl : h.link b = some a) : h.pointedTo a = true := by
  rw [link, Option.bind_eq_some_iff] at hl
  obtain ⟨r, hr, hp⟩ := hl
  rw [pointedTo, List.any_eq_true]
  refine ⟨some r, ?_, decide_eq_true hp⟩
  rw [← getElem_of_get hr (lt_of_get hr)]
  exact List.getElem_mem _

end Heap

namespace Thunk

variable {M : Machine} {held : Waiting M} {span : Span} {s : Loop M} {n : ℕ}

theorem isLink_blackhole (r : ThunkRepr M.Code M.Native) :
    Heap.isLink (some (prepareBlackhole M span r)) = false := by
  cases r <;> rfl

theorem isLink_of_forced? {v : Value} (hv : v.forced? = some v) :
    Heap.isLink (some (.evaluated v : ThunkRepr M.Code M.Native)) = false := by
  cases v <;> first | rfl | cases hv

theorem links_markMyself (span : Span) {inner : ℕ}
    (h : s.heap.get s.myself = some (.evaluated (.thunk inner))) :
    (s.markMyself span (.evaluated (.thunk inner))).links + 1 = s.heap.links := by
  have hset := Heap.links_set h (some (prepareBlackhole M span (.evaluated (.thunk inner))))
  rw [isLink_blackhole] at hset
  exact hset

/-- A round that goes on uses up a link. -/
theorem links_again {next : Loop M} (hnext : iterate M held span s = .again next) :
    next.heap.links + 1 = s.heap.links := by
  have hround := @iterate_rounds M held span s
  rw [hnext] at hround
  cases hround with
  | steal inner r h hi hu =>
    have hmark := links_markMyself span h
    have hfree := Heap.links_set hi none
    obtain ⟨f, d, c, hb⟩ := Loop.marked_markMyself span h
    have hself : ((s.markMyself span (.evaluated (.thunk inner))).free inner).get s.myself =
        some (.blackhole f d c) :=
      (Heap.get_free_ne (Ne.symm (ne_of_unique hu))).trans hb
    have hset := Heap.links_set hself (some r)
    show Heap.links (List.set _ s.myself (some r)) + 1 = _
    simp only [Heap.isLink, Option.bind_none, Option.isSome_none, Option.bind_some,
      ThunkRepr.pointsTo, Bool.false_eq_true, if_false] at hfree hset
    change Heap.links (Heap.free _ inner) + _ = _ at hfree
    omega
  | copy inner v h hi hv =>
    have hmark := links_markMyself span h
    obtain ⟨f, d, c, hb⟩ := Loop.marked_markMyself span h
    have hset := Heap.links_set hb (some (.evaluated v))
    rw [isLink_of_forced? hv] at hset
    show Heap.links (List.set _ s.myself (some (.evaluated v))) + 1 = _
    simp only [Heap.isLink, Option.bind_some, ThunkRepr.pointsTo, Option.isSome_none,
      Bool.false_eq_true, if_false] at hset
    omega
  | follow inner r h hi hr => exact links_markMyself span h

/-- The loop leaves the chain, or enters code, before it has used up all links. -/
theorem continues_le (held : Waiting M) (span : Span) (s : Loop M) :
    ∃ k s', k ≤ s.heap.links ∧ continues M held span k s = some s' ∧
      ∀ next, iterate M held span s' ≠ .again next := by
  induction hl : s.heap.links generalizing s with
  | zero =>
    refine ⟨0, s, Nat.le_refl 0, rfl, fun next h => ?_⟩
    have := links_again h
    omega
  | succ l ih =>
    cases hround : iterate M held span s with
    | again next =>
      have hlinks := links_again hround
      obtain ⟨k, s', hk, hcont, hs'⟩ := ih next (by omega)
      refine ⟨k + 1, s', by omega, ?_, hs'⟩
      rw [continues, hround]
      exact hcont
    | _ =>
      refine ⟨0, s, by omega, rfl, fun next h => ?_⟩
      rw [hround] at h
      cases h

-- ====================
-- Chains that lead back
-- ====================

/-- From these thunks the loop finds nothing but them: each is under evaluation or points to
    one of them. -/
def Trap (h : Heap M.Code M.Native) (D : Set ℕ) : Prop :=
  ∀ x ∈ D, h.Marked x ∨ ∃ y ∈ D, h.get x = some (.evaluated (.thunk y))

theorem get_of_link {h : Heap M.Code M.Native} {x y : ℕ} (hl : h.link x = some y) :
    h.get x = some (.evaluated (.thunk y)) := by
  rw [Heap.link, Option.bind_eq_some_iff] at hl
  obtain ⟨r, hr, hp⟩ := hl
  unfold ThunkRepr.pointsTo at hp
  split at hp
  · cases hp
    exact hr
  · cases hp

/-- All thunks that lead to the same one. -/
theorem trap_of_leadsBack {h : Heap M.Code M.Native} {a : ℕ} (hb : h.LeadsBack a) :
    ∃ D : Set ℕ, a ∈ D ∧ Trap h D := by
  obtain ⟨b, hab, hback⟩ := hb
  refine ⟨{x | Relation.ReflTransGen (fun x y => h.link x = some y) x b}, hab, fun x hx => ?_⟩
  obtain rfl | ⟨y, hxy, hyb⟩ := Relation.ReflTransGen.cases_head hx
  · apply hback.imp_right
    intro hcycle
    obtain ⟨y, hxy, hyx⟩ := Relation.TransGen.head'_iff.mp hcycle
    exact ⟨y, hyx, get_of_link hxy⟩
  · exact .inr ⟨y, hyb, get_of_link hxy⟩

theorem Trap.mark {D : Set ℕ} {r : ThunkRepr M.Code M.Native} (ht : Trap s.heap D)
    (h : s.heap.get s.myself = some r) : Trap (s.markMyself span r) D := by
  intro x hx
  by_cases hne : x = s.myself
  · subst hne
    exact .inl (Loop.marked_markMyself span h)
  · have hget : (s.markMyself span r).get x = s.heap.get x := Heap.get_replace_ne hne
    rw [Heap.Marked, hget]
    exact ht x hx

/-- A thunk of the trap to which no other one points may be taken apart. -/
theorem Trap.steal {h : Heap M.Code M.Native} {D : Set ℕ} {a inner : ℕ}
    {r : ThunkRepr M.Code M.Native} (ht : Trap h D) (ha : a < h.length) (hne : a ≠ inner)
    (hinner : inner ∈ D) (hi : h.get inner = some r) (hp : h.pointedTo inner = false) :
    Trap ((h.free inner).replace a r) (D \ {inner}) := by
  have hother : ∀ x y, h.get x = some (.evaluated (.thunk y)) → y ≠ inner := by
    rintro x y hx rfl
    have hl : h.link x = some y := by rw [Heap.link, hx, Option.bind_some, ThunkRepr.pointsTo]
    rw [Heap.pointedTo_of_link hl] at hp
    cases hp
  have hself : ((h.free inner).replace a r).get a = h.get inner := by
    rw [Heap.get_replace_self (by rw [Heap.length_free]; exact ha), hi]
  -- the content of a thunk in the trap, wherever it is now
  have hcontent : ∀ x ∈ D, ∀ x', ((h.free inner).replace a r).get x' = h.get x →
      ((h.free inner).replace a r).Marked x' ∨ ∃ y ∈ D \ {inner},
        ((h.free inner).replace a r).get x' = some (.evaluated (.thunk y)) := by
    intro x hx x' hx'
    rw [Heap.Marked, hx']
    apply (ht x hx).imp_right
    rintro ⟨y, hy, hlink⟩
    exact ⟨y, ⟨hy, hother x y hlink⟩, hlink⟩
  rintro x ⟨hx, hxi⟩
  by_cases hxa : x = a
  · subst hxa
    exact hcontent inner hinner x hself
  · apply hcontent x hx x
    rw [Heap.get_replace_ne hxa, Heap.get_free_ne hxi]

theorem Trap.cell {h : Heap M.Code M.Native} {D : Set ℕ} {x : ℕ}
    {cell : Option (ThunkRepr M.Code M.Native)} (ht : Trap h D) (hx : x ∈ D) (hc : h.get x = cell) :
    (∃ f d c, cell = some (.blackhole f d c)) ∨ ∃ y ∈ D, cell = some (.evaluated (.thunk y)) := by
  subst hc
  exact ht x hx

/-- One round stays in the trap, or finds that the thunk is under evaluation. -/
theorem trap_round {D : Set ℕ} (ht : Trap s.heap D) (hs : s.myself ∈ D) :
    (∃ h f d c, iterate M held span s = .done h (.error (.error (.infiniteRecursion f d c)))) ∨
      ∃ next D', iterate M held span s = .again next ∧ Trap next.heap D' ∧ next.myself ∈ D' := by
  have hround := @iterate_rounds M held span s
  -- the next thunk is in the trap, and so is what it holds
  have hinner : ∀ inner, s.heap.get s.myself = some (.evaluated (.thunk inner)) → inner ∈ D := by
    intro inner h
    obtain ⟨_, _, _, ⟨⟩⟩ | ⟨y, hy, ⟨⟩⟩ := ht.cell hs h
    exact hy
  generalize iterate M held span s = round at hround ⊢
  cases hround with
  | gone h => obtain ⟨_, _, _, ⟨⟩⟩ | ⟨y, hy, ⟨⟩⟩ := ht.cell hs h
  | forced v h hv =>
    obtain ⟨_, _, _, ⟨⟩⟩ | ⟨y, hy, ⟨⟩⟩ := ht.cell hs h
    cases hv
  | blackhole f d c h => exact .inl ⟨_, f, d, c, rfl⟩
  | native native h => obtain ⟨_, _, _, ⟨⟩⟩ | ⟨y, hy, ⟨⟩⟩ := ht.cell hs h
  | suspended code at' h => obtain ⟨_, _, _, ⟨⟩⟩ | ⟨y, hy, ⟨⟩⟩ := ht.cell hs h
  | innerGone inner h hi => obtain ⟨_, _, _, ⟨⟩⟩ | ⟨y, hy, ⟨⟩⟩ := (ht.mark h).cell (hinner inner h) hi
  | copy inner v h hi hv =>
    obtain ⟨_, _, _, ⟨⟩⟩ | ⟨y, hy, ⟨⟩⟩ := (ht.mark h).cell (hinner inner h) hi
    cases hv
  | follow inner r h hi hr => exact .inr ⟨_, D, rfl, ht.mark h, hinner inner h⟩
  | steal inner r h hi hu =>
    have hne := ne_of_unique hu
    have hlt : s.myself < (s.markMyself span (.evaluated (.thunk inner))).length := by
      rw [Loop.markMyself, Heap.length_replace]
      exact Heap.lt_of_get h
    have hp : (s.markMyself span (.evaluated (.thunk inner))).pointedTo inner = false := by
      rw [unique, Bool.and_eq_true, Bool.and_eq_true] at hu
      exact Bool.not_eq_true' _ ▸ hu.1.2
    exact .inr ⟨_, D \ {inner}, rfl,
      (ht.mark h).steal hlt (Ne.symm hne) (hinner inner h) hi hp, hs, Ne.symm hne⟩

theorem forceLoop_of_trap {D : Set ℕ} (ht : Trap s.heap D) (hs : s.myself ∈ D)
    (hn : s.heap.links < n) :
    ∃ h' f d c, forceLoop M n held span s =
      some (h', .error (.error (.infiniteRecursion f d c))) := by
  induction n generalizing s D with
  | zero => omega
  | succ n ih =>
    obtain ⟨h', f, d, c, hdone⟩ | ⟨next, D', hagain, ht', hs'⟩ :=
      @trap_round M held span s D ht hs
    · refine ⟨h', f, d, c, ?_⟩
      rw [forceLoop, hdone]
    · have hlinks := links_again hagain
      rw [forceLoop, hagain]
      exact ih ht' hs' (by omega)

-- ====================
-- Forcing
-- ====================

/-- A thunk that was forced has its value together with all thunks on the way; a chain that leads
    back is found to do so; and each time the loop ends or enters code after finitely many rounds. -/
theorem force_consistent (M : Machine) (held : Waiting M) (span : Span)
    (h : Heap M.Code M.Native) (a : ℕ) :
    (∀ n h' v, forceLoop M n held span ⟨h, a, []⟩ = some (h', .ok v) →
      v.forced? = some v ∧ h'.get a = some (.evaluated v) ∧
        ∀ b ∈ visits M n held span ⟨h, a, []⟩, h'.get b = some (.evaluated v)) ∧
    (h.LeadsBack a → ∀ n, h.links < n → ∃ h' f d c,
      forceLoop M n held span ⟨h, a, []⟩ = some (h', .error (.error (.infiniteRecursion f d c)))) ∧
    ∀ s : Loop M, ∃ k s', k ≤ s.heap.links ∧ continues M held span k s = some s' ∧
      ∀ next, iterate M held span s' ≠ .again next := by
  refine ⟨fun n h' v hf => ?_, fun hb n hn => ?_, continues_le held span⟩
  · have hforced := forceLoop_forced (Loop.opened_nil h a) hf
    exact ⟨hforced.value, hforced.written a List.mem_cons_self, hforced.visited⟩
  · obtain ⟨D, ha, ht⟩ := trap_of_leadsBack hb
    exact @forceLoop_of_trap M held span ⟨h, a, []⟩ n D ht ha hn

end Thunk

end Snix.Eval
