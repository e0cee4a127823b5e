import Snix.Eval.Value.Thunk.Force

/-!
# Thunks that could not be forced

An error leaves the loop without taking the marks away: the thunk that was forced, and
all thunks of its chain, stay marked. Nothing else takes them away either, whatever is
evaluated afterwards. So the next one to force such a thunk is told that it depends on
itself.

## Main results

- `forceLoop_keeps` — the marks that a loop keeps, also when it fails
- `force_after_failure` — a thunk that could not be forced once
-/

namespace Snix.Eval.Thunk

variable {M : Machine} {held : Waiting M} {span : Span} {s : Loop M} {n : ℕ}

open Heap (Marked)

-- ====================
-- Marks
-- ====================

theorem marked_replace {h : Heap M.Code M.Native} {x a : ℕ} {r : ThunkRepr M.Code M.Native}
    (hx : h.Marked x) (hne : x ≠ a) : (h.replace a r).Marked x := by
  obtain ⟨f, d, c, hx⟩ := hx
  exact ⟨f, d, c, (Heap.get_replace_ne hne).trans hx⟩

theorem marked_free {h : Heap M.Code M.Native} {x a : ℕ} (hx : h.Marked x) (hne : x ≠ a) :
    (h.free a).Marked x := by
  obtain ⟨f, d, c, hx⟩ := hx
  exact ⟨f, d, c, (Heap.get_free_ne hne).trans hx⟩

theorem marked_append {h : Heap M.Code M.Native} {x : ℕ} (l : Heap M.Code M.Native)
    (hx : h.Marked x) : Heap.Marked (h ++ l) x := by
  have hlt := hx.lt
  obtain ⟨f, d, c, hx⟩ := hx
  exact ⟨f, d, c, (Heap.get_append hlt).trans hx⟩

theorem marked_markMyself {x : ℕ} {r : ThunkRepr M.Code M.Native}
    (h : s.heap.get s.myself = some r) (hx : s.heap.Marked x) :
    (s.markMyself span r).Marked x := by
  by_cases hne : x = s.myself
  · subst hne
    exact Loop.marked_markMyself span h
  · exact marked_replace hx hne

/-- A thunk that does not hold a mark is none of those that do. -/
theorem ne_of_marked {h : Heap M.Code M.Native} {x a : ℕ} (hx : h.Marked x) (ha : ¬h.Marked a) :
    x ≠ a := by
  rintro rfl
  exact ha hx

theorem not_marked {h : Heap M.Code M.Native} {a : ℕ} {cell : Option (ThunkRepr M.Code M.Native)}
    (hget : h.get a = cell) (hcell : ∀ f d c, cell ≠ some (.blackhole f d c)) : ¬h.Marked a := by
  rintro ⟨f, d, c, hm⟩
  exact hcell f d c (hget.symm.trans hm)

/-- The marks that a loop keeps: those of the thunks that others hold, and when it fails also
    its own. -/
structure Keeps (held : Waiting M) (s : Loop M) (h' : Heap M.Code M.Native)
    (r : Except ForceFault Value) : Prop where
  held : ∀ x ∈ held.thunks, x ∉ s.alsoUpdate → s.heap.Marked x → h'.Marked x
  own : ∀ e, r = .error (.error e) → ∀ x ∈ s.myself :: s.alsoUpdate, h'.Marked x

def KeepsWithin (M : Machine) (n : ℕ) : Prop :=
  ∀ (held : Waiting M) (span : Span) (s : Loop M) (h' : Heap M.Code M.Native)
    (r : Except ForceFault Value),
    s.Opened → forceLoop M n held span s = some (h', r) → Keeps held s h' r

def CodeKeepsWithin (M : Machine) (n : ℕ) : Prop :=
  ∀ (held : Waiting M) (h h' : Heap M.Code M.Native) (code : M.Code) (r : Except ForceFault Value),
    runCode M n held h code = some (h', r) → ∀ x ∈ held.thunks, h.Marked x → h'.Marked x

/-- The loop fails with the current thunk marked. -/
theorem keeps_failed {h₁ : Heap M.Code M.Native} {r : ThunkRepr M.Code M.Native}
    (hs : s.Opened) (h : s.heap.get s.myself = some r)
    (hkeep : ∀ x, x ∈ s.myself :: s.alsoUpdate ++ held.thunks → (s.markMyself span r).Marked x →
      h₁.Marked x) (e : ForceFault) : Keeps held s h₁ (.error e) := by
  refine ⟨fun x hx _ hm => ?_, fun e' _ x hx => ?_⟩
  · exact hkeep x (List.mem_append_right _ hx) (marked_markMyself h hm)
  · apply hkeep x (List.mem_append_left _ hx)
    obtain rfl | hx := List.mem_cons.mp hx
    · exact Loop.marked_markMyself span h
    · exact marked_markMyself h (hs x hx)

/-- The current thunk was marked, something happened, and it got new content. -/
theorem Keeps.of_replace {h₁ h' : Heap M.Code M.Native} {r r' : ThunkRepr M.Code M.Native}
    {result : Except ForceFault Value} (ih : KeepsWithin M n) (hs : s.Opened)
    (h : s.heap.get s.myself = some r) (hm : ¬s.heap.Marked s.myself)
    (hkeep : ∀ x, x ∈ s.myself :: s.alsoUpdate ++ held.thunks → (s.markMyself span r).Marked x →
      h₁.Marked x)
    (hf : forceLoop M n held span ⟨h₁.replace s.myself r', s.myself, s.alsoUpdate⟩ =
      some (h', result)) : Keeps held s h' result := by
  have hnext : ∀ x ∈ s.alsoUpdate ++ held.thunks, s.heap.Marked x →
      (h₁.replace s.myself r').Marked x := by
    intro x hx hmx
    apply marked_replace _ (ne_of_marked hmx hm)
    exact hkeep x (List.mem_cons_of_mem _ hx) (marked_markMyself h hmx)
  have hopened : Loop.Opened (M := M) ⟨h₁.replace s.myself r', s.myself, s.alsoUpdate⟩ :=
    fun b hb => hnext b (List.mem_append_left _ hb) (hs b hb)
  have hkeeps := ih held span _ h' result hopened hf
  refine ⟨fun x hx hxu hmx => ?_, hkeeps.own⟩
  exact hkeeps.held x hx hxu (hnext x (List.mem_append_right _ hx) hmx)

theorem keepsWithin_succ (ih : KeepsWithin M n) (ihCode : CodeKeepsWithin M n) :
    KeepsWithin M (n + 1) := by
  intro held span s h' r hs hf
  rw [forceLoop] at hf
  have hround := @iterate_rounds M held span s
  generalize iterate M held span s = round at hf hround
  cases hround with
  | gone h =>
    cases hf
    exact ⟨fun x _ _ hm => hm, fun e he => by cases he⟩
  | forced w h hw =>
    cases hf
    refine ⟨fun x _ hxu hm => ?_, fun e he => by cases he⟩
    obtain ⟨f, d, c, hm⟩ := hm
    refine ⟨f, d, c, ?_⟩
    rw [hs.get_foldl_replace, if_neg hxu, hm]
  | blackhole f d c h =>
    cases hf
    exact keeps_failed hs h (fun x _ hm => hm) _
  | innerGone inner h hi =>
    cases hf
    exact keeps_failed hs h (fun x _ hm => hm) _
  | native native h =>
    dsimp only at hf
    cases hcall : M.call native (s.markMyself span (.native native)) with
    | error e =>
      rw [hcall] at hf
      cases hf
      exact keeps_failed hs h (fun x _ hm => hm) _
    | ok result =>
      rw [hcall] at hf
      refine Keeps.of_replace ih hs h (not_marked h ?_) (fun x _ hm => marked_append _ hm) hf
      intro f d c hc
      cases hc
  | suspended code at' h =>
    dsimp only at hf
    cases hrun : runCode M n (Loop.waiting { s with heap := s.markMyself span (.suspended code at') }
        held) (s.markMyself span (.suspended code at')) code with
    | none =>
      rw [hrun] at hf
      cases hf
    | some result =>
      obtain ⟨heap, e | w⟩ := result
      · rw [hrun] at hf
        cases hf
        exact keeps_failed hs h (ihCode _ _ _ _ _ hrun) _
      · rw [hrun] at hf
        refine Keeps.of_replace ih hs h (not_marked h ?_) (ihCode _ _ _ _ _ hrun) hf
        intro f d c hc
        cases hc
  | steal inner r h hi hu =>
    refine Keeps.of_replace ih hs h (not_marked h ?_) (fun x hx hm => ?_) hf
    · intro f d c hc
      cases hc
    · apply marked_free hm
      rintro rfl
      exact not_mem_of_unique hu hx
  | copy inner w h hi hw =>
    refine Keeps.of_replace ih hs h (not_marked h ?_) (fun x _ hm => hm) hf
    intro f d c hc
    cases hc
  | follow inner r h hi hr =>
    have hm : ¬s.heap.Marked s.myself := not_marked h fun f d c hc => by cases hc
    have hopened : Loop.Opened (M := M) ⟨s.markMyself span (.evaluated (.thunk inner)), inner,
        s.alsoUpdate ++ [s.myself]⟩ := by
      intro b hb
      obtain hb | hb := List.mem_append.mp hb
      · exact marked_markMyself h (hs b hb)
      · rw [List.mem_singleton.mp hb]
        exact Loop.marked_markMyself span h
    have hkeeps := ih held span _ h' _ hopened hf
    refine ⟨fun x hx hxu hmx => ?_, fun e he x hx => ?_⟩
    · apply hkeeps.held x hx _ (marked_markMyself h hmx)
      rw [List.mem_append, List.mem_singleton, not_or]
      exact ⟨hxu, ne_of_marked hmx hm⟩
    · apply hkeeps.own e he x
      apply List.mem_cons_of_mem
      obtain rfl | hx := List.mem_cons.mp hx
      · exact List.mem_append_right _ (List.mem_singleton_self _)
      · exact List.mem_append_left _ hx

theorem codeKeepsWithin_succ (ih : KeepsWithin M n) (ihCode : CodeKeepsWithin M n) :
    CodeKeepsWithin M (n + 1) := by
  intro held h h' code r hrun x hx hm
  rw [runCode] at hrun
  cases hstep : M.step code with
  | ret w =>
    rw [hstep] at hrun
    cases hrun
    exact hm
  | fail e =>
    rw [hstep] at hrun
    cases hrun
    exact hm
  | force w span k =>
    rw [hstep] at hrun
    cases w with
    | thunk a =>
      dsimp only at hrun
      cases hforce : forceLoop M n { held with codes := code :: held.codes } span ⟨h, a, []⟩ with
      | none =>
        rw [hforce] at hrun
        cases hrun
      | some result =>
        have hkeeps := ih _ _ _ _ _ (Loop.opened_nil h a) hforce
        have hm' := hkeeps.held x hx List.not_mem_nil hm
        obtain ⟨heap, e | w⟩ := result
        · rw [hforce] at hrun
          cases hrun
          exact hm'
        · rw [hforce] at hrun
          exact ihCode _ _ _ _ _ hrun x hx hm'
    | _ => exact ihCode _ _ _ _ _ hrun x hx hm
  | newSuspended code span k =>
    rw [hstep] at hrun
    exact ihCode _ _ _ _ _ hrun x hx (marked_append _ hm)
  | newNative native k =>
    rw [hstep] at hrun
    exact ihCode _ _ _ _ _ hrun x hx (marked_append _ hm)
  | newEvaluated w k =>
    rw [hstep] at hrun
    exact ihCode _ _ _ _ _ hrun x hx (marked_append _ hm)
  | finalise a code k =>
    rw [hstep] at hrun
    dsimp only at hrun
    cases ha : h.get a with
    | none =>
      rw [ha] at hrun
      cases hrun
      exact hm
    | some r =>
      rw [ha] at hrun
      cases r with
      | suspended old span =>
        apply ihCode _ _ _ _ _ hrun x hx
        exact marked_replace hm (ne_of_marked hm (not_marked ha fun f d c hc => by cases hc))
      | _ =>
        cases hrun
        exact hm
  | inspect a k =>
    rw [hstep] at hrun
    exact ihCode _ _ _ _ _ hrun x hx hm
  | silent k =>
    rw [hstep] at hrun
    exact ihCode _ _ _ _ _ hrun x hx hm

theorem keepsWithin (M : Machine) : ∀ n, KeepsWithin M n ∧ CodeKeepsWithin M n
  | 0 => by
    constructor
    · intro held span s h' r _ hf
      cases hf
    · intro held h h' code r hrun
      cases hrun
  | n + 1 => by
    obtain ⟨ih, ihCode⟩ := keepsWithin M n
    exact ⟨keepsWithin_succ ih ihCode, codeKeepsWithin_succ ih ihCode⟩

/-- Other code is evaluated afterwards, and may fail as well, while the thunk is kept. -/
def Evaluations (M : Machine) (a : ℕ) : Heap M.Code M.Native → Heap M.Code M.Native → Prop :=
  Relation.ReflTransGen fun h h' => ∃ n held code r,
    a ∈ held.thunks ∧ runCode M n held h code = some (h', r)

theorem Evaluations.marked {h h' : Heap M.Code M.Native} {a : ℕ} (he : Evaluations M a h h')
    (hm : h.Marked a) : h'.Marked a := by
  induction he with
  | refl => exact hm
  | tail _ hstep ih =>
    obtain ⟨n, held, code, r, ha, hrun⟩ := hstep
    exact (keepsWithin M n).2 held _ _ code r hrun a ha ih

end Snix.Eval.Thunk
