import Mathlib.Data.Fintype.EquivFin
import Mathlib.Data.Finset.Card

/-!
# Closures by discovery

Elements are taken from the front of a queue, and what they lead to is added to its end, unless it was
discovered before. What the queue starts with does not count as discovered, so it may be taken twice.
Finding out what an element leads to may fail, and then the loop ends.

## Main definitions

- `enqueueNew` — adds what was not discovered before
- `sweep` — the loop, with how it ended
- `Discovered` — what the start leads to

## Main results

- `exists_sweep` — the loop ends if finitely many elements can be reached
- `mem_sweep_iff`, `sweep_end_eq_none_iff`, `exists_of_sweep_end` — what is taken, and when the loop fails
-/

namespace Snix

variable {α ε : Type}

/-- Adds elements that were not discovered before to the queue. -/
def enqueueNew [DecidableEq α] : List α → List α → List α → List α × List α
  | [], queue, visited => (queue, visited)
  | x :: rest, queue, visited =>
    if visited.contains x then enqueueNew rest queue visited
    else enqueueNew rest (queue ++ [x]) (x :: visited)

/-- The elements that were taken from the queue, and the error that ended the loop, if one did. None
    if there are more elements than the given number. -/
def sweep [DecidableEq α] (expand : α → Except ε (List α)) :
    ℕ → List α → List α → Option (List α × Option ε)
  | _, [], _ => some ([], none)
  | 0, _ :: _, _ => none
  | n + 1, x :: queue, visited =>
    match expand x with
    | .error e => some ([], some e)
    | .ok next =>
      let (queue, visited) := enqueueNew next queue visited
      (sweep expand n queue visited).map fun r => (x :: r.1, r.2)

/-- What the start leads to. -/
inductive Discovered (expand : α → Except ε (List α)) (start : List α) : α → Prop
  | start {x : α} (hx : x ∈ start) : Discovered expand start x
  | step {x y : α} {next : List α} (hx : Discovered expand start x) (hnext : expand x = .ok next)
      (hy : y ∈ next) : Discovered expand start y

variable {expand : α → Except ε (List α)} {start queue visited done : List α} {n : ℕ}

theorem sweep_nil [DecidableEq α] : sweep expand n [] visited = some ([], none) := by
  cases n <;> rfl

theorem sweep_cons_of_ok [DecidableEq α] {x : α} {next queue' visited' : List α}
    (hexpand : expand x = .ok next)
    (henqueue : enqueueNew next queue visited = (queue', visited')) :
    sweep expand (n + 1) (x :: queue) visited =
      (sweep expand n queue' visited').map fun r => (x :: r.1, r.2) := by
  rw [sweep, hexpand]
  dsimp only
  rw [henqueue]

/-- What is added to the queue is what is discovered. -/
theorem enqueueNew_spec [DecidableEq α] (next queue visited : List α) :
    ∃ new, enqueueNew next queue visited = (queue ++ new, new.reverse ++ visited) ∧
      (∀ x ∈ new, x ∈ next) ∧ (∀ x ∈ next, x ∈ new ∨ x ∈ visited) ∧
      (visited.Nodup → (new.reverse ++ visited).Nodup) := by
  induction next generalizing queue visited with
  | nil => exact ⟨[], by simp [enqueueNew], by simp, by simp, id⟩
  | cons x next ih =>
    rw [enqueueNew]
    split_ifs with hx
    · obtain ⟨new, heq, hsub, hall, hnodup⟩ := ih queue visited
      refine ⟨new, heq, fun y hy => List.mem_cons_of_mem _ (hsub y hy), ?_, hnodup⟩
      exact List.forall_mem_cons.mpr ⟨.inr (List.contains_iff_mem.mp hx), hall⟩
    · have hx : x ∉ visited := fun hmem => hx (List.contains_iff_mem.mpr hmem)
      obtain ⟨new, heq, hsub, hall, hnodup⟩ := ih (queue ++ [x]) (x :: visited)
      have hcons : (x :: new).reverse ++ visited = new.reverse ++ x :: visited := by
        rw [List.reverse_cons, List.append_assoc, List.singleton_append]
      refine ⟨x :: new, ?_, ?_, ?_, fun h => ?_⟩
      · rw [heq, hcons, List.append_assoc, List.singleton_append]
      · exact List.forall_mem_cons.mpr
          ⟨List.mem_cons_self, fun y hy => List.mem_cons_of_mem _ (hsub y hy)⟩
      · refine List.forall_mem_cons.mpr ⟨.inl List.mem_cons_self, fun y hy => ?_⟩
        rcases hall y hy with h | h
        · exact .inl (List.mem_cons_of_mem _ h)
        · rcases List.mem_cons.mp h with rfl | h
          · exact .inl List.mem_cons_self
          · exact .inr h
      · rw [hcons]
        exact hnodup (List.nodup_cons.mpr ⟨hx, h⟩)

/-- Each round takes an element, and every element that is added is discovered for the first time. So
    the loop ends when as many elements were taken as there are, and as the queue started with. -/
theorem exists_sweep [DecidableEq α] {s : Finset α}
    (hclosed : ∀ x ∈ s, ∀ next, expand x = .ok next → ∀ y ∈ next, y ∈ s)
    (hqueue : ∀ x ∈ queue, x ∈ s) (hvisited : ∀ x ∈ visited, x ∈ s) (hnodup : visited.Nodup)
    (hn : s.card + queue.length ≤ n + visited.length) :
    ∃ r, sweep expand n queue visited = some r := by
  induction n generalizing queue visited with
  | zero =>
    cases queue with
    | nil => exact ⟨_, rfl⟩
    | cons x queue =>
      have hcard : visited.toFinset.card ≤ s.card :=
        Finset.card_le_card fun y hy => hvisited y (List.mem_toFinset.mp hy)
      rw [List.toFinset_card_of_nodup hnodup] at hcard
      rw [List.length_cons] at hn
      omega
  | succ n ih =>
    cases queue with
    | nil => exact ⟨_, rfl⟩
    | cons x queue =>
      obtain ⟨hx, hqueue⟩ := List.forall_mem_cons.mp hqueue
      cases hexpand : expand x with
      | error e => exact ⟨([], some e), by rw [sweep, hexpand]⟩
      | ok next =>
        obtain ⟨new, heq, hsub, -, hnew⟩ := enqueueNew_spec next queue visited
        have hmem : ∀ y ∈ new, y ∈ s := fun y hy => hclosed x hx next hexpand y (hsub y hy)
        have hqueue' : ∀ y ∈ queue ++ new, y ∈ s := List.forall_mem_append.mpr ⟨hqueue, hmem⟩
        have hvisited' : ∀ y ∈ new.reverse ++ visited, y ∈ s :=
          List.forall_mem_append.mpr ⟨fun y hy => hmem y (List.mem_reverse.mp hy), hvisited⟩
        obtain ⟨r, hr⟩ := ih hqueue' hvisited' (hnew hnodup) (by
          rw [List.length_cons] at hn
          rw [List.length_append, List.length_append, List.length_reverse]
          omega)
        refine ⟨(x :: r.1, r.2), ?_⟩
        rw [sweep_cons_of_ok hexpand heq, hr]
        rfl

/-- With more rounds than it needs, the loop is the same. -/
theorem sweep_of_le [DecidableEq α] {m : ℕ} {r : List α × Option ε}
    (h : sweep expand n queue visited = some r) (hle : n ≤ m) :
    sweep expand m queue visited = some r := by
  induction n generalizing m queue visited r with
  | zero =>
    cases queue with
    | nil => rwa [sweep_nil] at h ⊢
    | cons x queue => cases h
  | succ n ih =>
    obtain ⟨m, rfl⟩ := Nat.exists_eq_add_of_le' (Nat.le_trans (Nat.le_add_left 1 n) hle)
    cases queue with
    | nil => rwa [sweep_nil] at h ⊢
    | cons x queue =>
      cases hexpand : expand x with
      | error e =>
        rw [sweep, hexpand] at h ⊢
        exact h
      | ok next =>
        rcases henqueue : enqueueNew next queue visited with ⟨queue', visited'⟩
        rw [sweep_cons_of_ok hexpand henqueue] at h ⊢
        obtain ⟨rest, hrest, rfl⟩ := Option.map_eq_some_iff.mp h
        rw [ih hrest (Nat.le_of_add_le_add_right hle)]
        rfl

/-- What holds between the rounds, where `taken` are the elements of the rounds before. -/
structure Sweeping (expand : α → Except ε (List α)) (start taken queue visited : List α) : Prop where
  reached : ∀ x ∈ queue, Discovered expand start x
  start : ∀ x ∈ start, x ∈ taken ∨ x ∈ queue
  expanded : ∀ x ∈ taken, ∃ next, expand x = .ok next ∧ ∀ y ∈ next, y ∈ visited
  visited : ∀ x ∈ visited, x ∈ taken ∨ x ∈ queue

theorem Sweeping.step {taken next new : List α} {x : α}
    (h : Sweeping expand start taken (x :: queue) visited) (hnext : expand x = .ok next)
    (hsub : ∀ y ∈ new, y ∈ next) (hall : ∀ y ∈ next, y ∈ new ∨ y ∈ visited) :
    Sweeping expand start (taken ++ [x]) (queue ++ new) (new.reverse ++ visited) := by
  have hx := h.reached x List.mem_cons_self
  have hmove : ∀ y, y ∈ taken ∨ y ∈ x :: queue → y ∈ taken ++ [x] ∨ y ∈ queue ++ new := by
    intro y hy
    simp only [List.mem_append, List.mem_cons] at hy ⊢
    tauto
  refine ⟨List.forall_mem_append.mpr ⟨fun y hy => h.reached y (List.mem_cons_of_mem _ hy),
    fun y hy => .step hx hnext (hsub y hy)⟩, fun y hy => hmove y (h.start y hy), ?_, ?_⟩
  · refine List.forall_mem_append.mpr ⟨fun y hy => ?_, List.forall_mem_singleton.mpr ?_⟩
    · obtain ⟨next', hnext', hvisited⟩ := h.expanded y hy
      exact ⟨next', hnext', fun z hz => List.mem_append_right _ (hvisited z hz)⟩
    · refine ⟨next, hnext, fun y hy => ?_⟩
      rw [List.mem_append, List.mem_reverse]
      exact hall y hy
  · refine List.forall_mem_append.mpr ⟨fun y hy => ?_, fun y hy => hmove y (h.visited y hy)⟩
    exact .inr (List.mem_append_right _ (List.mem_reverse.mp hy))

/-- What was taken when the queue is empty is closed. -/
theorem Sweeping.mem_of_discovered {taken : List α} (h : Sweeping expand start taken [] visited) {x : α}
    (hx : Discovered expand start x) : x ∈ taken := by
  have hmem : ∀ y, y ∈ taken ∨ y ∈ [] → y ∈ taken := fun y hy => hy.resolve_right List.not_mem_nil
  induction hx with
  | start hx => exact hmem _ (h.start _ hx)
  | step _ hnext hy ih =>
    obtain ⟨next', hnext', hvisited⟩ := h.expanded _ ih
    cases hnext.symm.trans hnext'
    exact hmem _ (h.visited _ (hvisited _ hy))

theorem Sweeping.sweep_spec_nil [DecidableEq α] {taken : List α} {stop : Option ε}
    (h : Sweeping expand start taken [] visited)
    (hsweep : sweep expand n [] visited = some (done, stop)) :
    (∀ x ∈ done, Discovered expand start x ∧ ∃ next, expand x = .ok next) ∧
      (stop = none → ∀ x, Discovered expand start x → x ∈ taken ++ done) ∧
      ∀ e, stop = some e → ∃ x, Discovered expand start x ∧ expand x = .error e := by
  rw [sweep_nil] at hsweep
  cases hsweep
  refine ⟨by simp, fun _ x hx => ?_, fun e he => by cases he⟩
  rw [List.append_nil]
  exact h.mem_of_discovered hx

/-- What is taken from here on, and how the loop ends. -/
theorem Sweeping.sweep_spec [DecidableEq α] {taken : List α} {stop : Option ε}
    (h : Sweeping expand start taken queue visited)
    (hsweep : sweep expand n queue visited = some (done, stop)) :
    (∀ x ∈ done, Discovered expand start x ∧ ∃ next, expand x = .ok next) ∧
      (stop = none → ∀ x, Discovered expand start x → x ∈ taken ++ done) ∧
      ∀ e, stop = some e → ∃ x, Discovered expand start x ∧ expand x = .error e := by
  induction n generalizing queue visited taken done with
  | zero =>
    cases queue with
    | nil => exact h.sweep_spec_nil hsweep
    | cons x queue => cases hsweep
  | succ n ih =>
    cases queue with
    | nil => exact h.sweep_spec_nil hsweep
    | cons x queue =>
      have hx := h.reached x List.mem_cons_self
      cases hexpand : expand x with
      | error e =>
        rw [sweep, hexpand] at hsweep
        cases hsweep
        refine ⟨by simp, (fun he => by cases he), fun e' he => ?_⟩
        cases he
        exact ⟨x, hx, hexpand⟩
      | ok next =>
        obtain ⟨new, heq, hsub, hall, -⟩ := enqueueNew_spec next queue visited
        rw [sweep_cons_of_ok hexpand heq] at hsweep
        obtain ⟨⟨done', stop'⟩, hrest, hcons⟩ := Option.map_eq_some_iff.mp hsweep
        cases hcons
        obtain ⟨hdone, hend, herr⟩ := ih (h.step hexpand hsub hall) hrest
        refine ⟨List.forall_mem_cons.mpr ⟨⟨hx, next, hexpand⟩, hdone⟩, fun he y hy => ?_, herr⟩
        have hmem := hend he y hy
        rw [List.append_assoc] at hmem
        exact hmem

theorem sweeping_start : Sweeping expand start [] start [] :=
  ⟨fun _ => .start, fun _ => .inr, fun _ hx => absurd hx List.not_mem_nil,
    fun _ hx => absurd hx List.not_mem_nil⟩

theorem discovered_of_mem_sweep [DecidableEq α] {stop : Option ε} {x : α}
    (h : sweep expand n start [] = some (done, stop)) (hx : x ∈ done) : Discovered expand start x := by
  obtain ⟨hdone, -, -⟩ := sweeping_start.sweep_spec h
  exact (hdone x hx).1

/-- If the loop ends without an error, what was taken is what the start leads to. -/
theorem mem_sweep_iff [DecidableEq α] (h : sweep expand n start [] = some (done, none)) (x : α) :
    x ∈ done ↔ Discovered expand start x := by
  obtain ⟨-, hend, -⟩ := sweeping_start.sweep_spec h
  exact ⟨discovered_of_mem_sweep h, hend rfl x⟩

/-- The loop ends with an error exactly if one of the elements that the start leads to has one. -/
theorem sweep_end_eq_none_iff [DecidableEq α] {stop : Option ε}
    (h : sweep expand n start [] = some (done, stop)) :
    stop = none ↔ ∀ x, Discovered expand start x → ∃ next, expand x = .ok next := by
  obtain ⟨hdone, hend, herr⟩ := sweeping_start.sweep_spec h
  constructor
  · intro he x hx
    exact (hdone x (hend he x hx)).2
  · intro hall
    cases stop with
    | none => rfl
    | some e =>
      obtain ⟨x, hx, hexpand⟩ := herr e rfl
      obtain ⟨next, hnext⟩ := hall x hx
      cases hexpand.symm.trans hnext

/-- An error of the loop is one of an element that the start leads to. -/
theorem exists_of_sweep_end [DecidableEq α] {stop : Option ε} {e : ε}
    (h : sweep expand n start [] = some (done, stop)) (he : stop = some e) :
    ∃ x, Discovered expand start x ∧ expand x = .error e := by
  obtain ⟨-, -, herr⟩ := sweeping_start.sweep_spec h
  exact herr e he

end Snix
