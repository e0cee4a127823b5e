import Snix.Lib.StreamParser

/-!
# Parsers on partial input

A streaming parser that sees only the beginning of the input either needs more, or has made up its
mind: whatever follows, it accepts or rejects all the same, and what follows is left unread.

## Main definitions

- `Extends` — a result, and the result on a longer input
- `PrefixStable` — parsers for which the two are always related
- `consumed` — the combinator that returns what was read beside the value

## Main results

- `PrefixStable.andThen`, `PrefixStable.separatedList0`, `PrefixStable.escapedTransform`, … — the
  combinators keep this
- `PrefixStable.eq_incomplete` — the beginnings of an input that is read to its end are incomplete
-/

namespace Snix.StreamParser

variable {E α β γ : Type}

/-- Relates a result to that on the input followed by `t`. Errors keep their severity. -/
inductive Extends (t : Bytes) : IResult E α → IResult E α → Prop
  | incomplete {r : IResult E α} : Extends t (.error .incomplete) r
  | ok {rest : Bytes} {a : α} : Extends t (.ok (rest, a)) (.ok (rest ++ t, a))
  | error {e e' : E} : Extends t (.error (.error e)) (.error (.error e'))
  | failure {e e' : E} : Extends t (.error (.failure e)) (.error (.failure e'))

/-- Sequences extend each other if their parts do. -/
theorem Extends.andThen {p p' : Parser E α} {q q' : α → Parser E β} {i i' t : Bytes}
    (hp : Extends t (p i) (p' i'))
    (hq : ∀ a rest, Extends t (q a rest) (q' a (rest ++ t))) :
    Extends t (andThen p q i) (andThen p' q' i') := by
  unfold StreamParser.andThen
  generalize p i = r at hp ⊢
  generalize p' i' = r' at hp ⊢
  cases hp with
  | incomplete => exact .incomplete
  | ok => exact hq _ _
  | error => exact .error
  | failure => exact .failure

/-- A parser whose results do not depend on what follows, but for running out of input. -/
def PrefixStable (p : Parser E α) : Prop := ∀ i t, Extends t (p i) (p (i ++ t))

namespace PrefixStable

variable {p : Parser E α} {q : Parser E β} {r : Parser E γ} {i t rest : Bytes} {a : α}

-- ====================
-- What it says
-- ====================

/-- What follows an accepted input is left unread. -/
theorem append_of_ok (hp : PrefixStable p) (h : p i = .ok (rest, a)) (t : Bytes) :
    p (i ++ t) = .ok (rest ++ t, a) := by
  have hext := hp i t
  rw [h] at hext
  generalize p (i ++ t) = r at hext ⊢
  cases hext with
  | ok => rfl

/-- The beginnings of an input that is read to its end are incomplete. -/
theorem eq_incomplete (hp : PrefixStable p) (h : p (i ++ t) = .ok ([], a)) (ht : t ≠ []) :
    p i = .error .incomplete := by
  have hext := hp i t
  rw [h] at hext
  generalize p i = r at hext ⊢
  generalize hr : (.ok ([], a) : IResult E α) = r' at hext
  cases hext with
  | incomplete => rfl
  | ok =>
    obtain ⟨hnil, -⟩ := Prod.mk.inj (Except.ok.inj hr)
    exact absurd (List.append_eq_nil_iff.mp hnil.symm).2 ht
  | error => cases hr
  | failure => cases hr

-- ====================
-- Tokens
-- ====================

theorem success (a : α) : PrefixStable (success a : Parser E α) := fun _ _ => .ok

theorem char [ParseError E] (c : UInt8) : PrefixStable (char c : Parser E UInt8) := by
  intro i t
  cases i with
  | nil => exact .incomplete
  | cons b rest =>
    simp only [StreamParser.char, List.cons_append]
    split_ifs
    · exact .ok
    · exact .error

theorem tag [ParseError E] (s : Bytes) : PrefixStable (tag s : Parser E Bytes) := by
  intro i t
  unfold StreamParser.tag
  by_cases hread : s <+: i
  · have hlong : s <+: i ++ t := hread.trans (List.prefix_append i t)
    rw [if_pos hread, if_pos hlong, List.drop_append_of_le_length hread.length_le]
    exact .ok
  · by_cases hshort : i <+: s
    · rw [if_neg hread, if_pos hshort]
      exact .incomplete
    · -- The input differs from the tag before either of them ends.
      have hread' : ¬s <+: i ++ t := by
        intro h
        exact (List.prefix_or_prefix_of_prefix h (List.prefix_append i t)).elim hread hshort
      have hshort' : ¬i ++ t <+: s := fun h => hshort ((List.prefix_append i t).trans h)
      rw [if_neg hread, if_neg hshort, if_neg hread', if_neg hshort']
      exact .error

theorem isNot [ParseError E] (set : Bytes) : PrefixStable (isNot set : Parser E Bytes) := by
  intro i t
  unfold StreamParser.isNot
  by_cases hall : i.all (notIn set) = true
  · rw [if_pos hall]
    exact .incomplete
  · obtain ⟨raw, d, rest, rfl, hd⟩ : ∃ raw d rest, i = raw ++ d :: rest ∧ notIn set d = false := by
      obtain ⟨d, hmem, hd⟩ := List.all_eq_false.mp (eq_false_of_ne_true hall)
      obtain ⟨raw, rest, rfl⟩ := List.append_of_mem hmem
      exact ⟨raw, d, rest, rfl, eq_false_of_ne_true hd⟩
    have hall' : ¬((raw ++ d :: rest) ++ t).all (notIn set) = true := by
      rw [List.all_append, Bool.and_eq_true]
      exact fun h => hall h.1
    obtain ⟨htake, hdrop⟩ := takeWhile_append_cons hd raw rest
    obtain ⟨htake', hdrop'⟩ := takeWhile_append_cons hd raw (rest ++ t)
    rw [if_neg hall, if_neg hall', List.append_assoc, List.cons_append, htake, hdrop, htake', hdrop']
    split_ifs
    · exact .error
    · rw [← List.cons_append, ← List.append_assoc]
      exact .ok

-- ====================
-- Combinators
-- ====================

/-- A parser that passes on the errors of `p`, and goes on in some way with what `p` read. -/
theorem of_cases {f : Parser E β} {g : Bytes → Bytes → α → IResult E β} (hp : PrefixStable p)
    (hok : ∀ i rest a, p i = .ok (rest, a) → f i = g i rest a)
    (herr : ∀ i e, p i = .error e → f i = .error e)
    (hg : ∀ i rest t a, Extends t (g i rest a) (g (i ++ t) (rest ++ t) a)) : PrefixStable f := by
  intro i t
  have hext := hp i t
  generalize hr : p i = r at hext
  generalize hr' : p (i ++ t) = r' at hext
  cases hext with
  | incomplete =>
    rw [herr i _ hr]
    exact .incomplete
  | ok =>
    rw [hok i _ _ hr, hok (i ++ t) _ _ hr']
    exact hg _ _ _ _
  | error =>
    rw [herr i _ hr, herr (i ++ t) _ hr']
    exact .error
  | failure =>
    rw [herr i _ hr, herr (i ++ t) _ hr']
    exact .failure

theorem andThen {q : α → Parser E β} (hp : PrefixStable p) (hq : ∀ a, PrefixStable (q a)) :
    PrefixStable (andThen p q) :=
  fun i t => .andThen (hp i t) fun a rest => hq a rest t

theorem value (hp : PrefixStable p) (b : β) : PrefixStable (value b p) := hp.andThen fun _ => success b

theorem map (hp : PrefixStable p) (f : α → β) : PrefixStable (map f p) :=
  hp.andThen fun a => success (f a)

theorem preceded (hp : PrefixStable p) (hq : PrefixStable q) : PrefixStable (preceded p q) :=
  hp.andThen fun _ => hq

theorem terminated (hp : PrefixStable p) (hq : PrefixStable q) : PrefixStable (terminated p q) :=
  hp.andThen fun a => hq.andThen fun _ => success a

theorem delimited (hp : PrefixStable p) (hq : PrefixStable q) (hr : PrefixStable r) :
    PrefixStable (delimited p q r) := hp.preceded (hq.terminated hr)

theorem separatedPair (hp : PrefixStable p) (hr : PrefixStable r) (hq : PrefixStable q) :
    PrefixStable (separatedPair p r q) :=
  hp.andThen fun a => hr.preceded (hq.andThen fun b => success (a, b))

theorem alt [ParseError E] {ps : List (Parser E α)} (h : ∀ p ∈ ps, PrefixStable p) :
    PrefixStable (alt ps) := by
  induction ps with
  | nil => exact fun _ _ => .error
  | cons p ps ih =>
    obtain ⟨hp, hps⟩ := List.forall_mem_cons.mp h
    cases ps with
    | nil => exact hp
    | cons q ps =>
      intro i t
      have hext := hp i t
      have hrest := ih hps i t
      rw [StreamParser.alt, StreamParser.alt]
      generalize p i = r at hext ⊢
      generalize p (i ++ t) = r' at hext ⊢
      cases hext with
      | incomplete => exact .incomplete
      | ok => exact .ok
      | error => exact hrest
      | failure => exact .failure

theorem opt (hp : PrefixStable p) : PrefixStable (opt p) := by
  intro i t
  have hext := hp i t
  unfold StreamParser.opt
  generalize p i = r at hext ⊢
  generalize p (i ++ t) = r' at hext ⊢
  cases hext with
  | incomplete => exact .incomplete
  | ok => exact .ok
  | error => exact .ok
  | failure => exact .failure

theorem mapRes [ParseError E] (hp : PrefixStable p) (f : α → Option β) :
    PrefixStable (mapRes f p) := by
  refine of_cases hp (fun i rest a h => by rw [StreamParser.mapRes, h])
    (fun i e h => by rw [StreamParser.mapRes, h]) fun i rest t a => ?_
  dsimp only
  cases f a with
  | none => exact .error
  | some b => exact .ok

theorem mapErr {E' : Type} (hp : PrefixStable p) (f : E → E') : PrefixStable (mapErr f p) := by
  intro i t
  have hext := hp i t
  unfold StreamParser.mapErr
  generalize p i = r at hext ⊢
  generalize p (i ++ t) = r' at hext ⊢
  cases hext with
  | incomplete => exact .incomplete
  | ok => exact .ok
  | error => exact .error
  | failure => exact .failure

-- ====================
-- Repetitions
-- ====================

/-- A repetition that runs out of fuel is incomplete, so that a longer input may have more. -/
theorem separatedListRest [ParseError E] (hr : PrefixStable r) (hp : PrefixStable p) {fuel fuel' : ℕ}
    (hfuel : fuel ≤ fuel') (acc : List α) (i t : Bytes) :
    Extends t (separatedListRest r p fuel acc i) (separatedListRest r p fuel' acc (i ++ t)) := by
  induction fuel generalizing fuel' acc i with
  | zero => exact .incomplete
  | succ fuel ih =>
    obtain ⟨fuel', rfl⟩ : ∃ n, fuel' = n + 1 := ⟨fuel' - 1, by omega⟩
    have hsep := hr i t
    rw [StreamParser.separatedListRest, StreamParser.separatedListRest]
    generalize r i = s at hsep ⊢
    generalize r (i ++ t) = s' at hsep ⊢
    cases hsep with
    | incomplete => exact .incomplete
    | error => exact .ok
    | failure => exact .failure
    | @ok i₁ _ =>
      have helem := hp i₁ t
      dsimp only
      generalize p i₁ = s at helem ⊢
      generalize p (i₁ ++ t) = s' at helem ⊢
      cases helem with
      | incomplete => exact .incomplete
      | error => exact .ok
      | failure => exact .failure
      | @ok i₂ a =>
        have hlen : (i₂ ++ t).length = (i ++ t).length ↔ i₂.length = i.length := by
          rw [List.length_append, List.length_append, Nat.add_right_cancel_iff]
        dsimp only
        simp only [hlen]
        split_ifs
        · exact .error
        · exact ih (Nat.le_of_succ_le_succ hfuel) _ _

theorem separatedList0 [ParseError E] (hr : PrefixStable r) (hp : PrefixStable p) :
    PrefixStable (separatedList0 r p) := by
  intro i t
  have hext := hp i t
  unfold StreamParser.separatedList0
  generalize p i = s at hext ⊢
  generalize p (i ++ t) = s' at hext ⊢
  cases hext with
  | incomplete => exact .incomplete
  | error => exact .ok
  | failure => exact .failure
  | ok => exact separatedListRest hr hp (by simp) _ _ _

theorem separatedList1 [ParseError E] (hr : PrefixStable r) (hp : PrefixStable p) :
    PrefixStable (separatedList1 r p) := by
  intro i t
  have hext := hp i t
  unfold StreamParser.separatedList1
  generalize p i = s at hext ⊢
  generalize p (i ++ t) = s' at hext ⊢
  cases hext with
  | incomplete => exact .incomplete
  | error => exact .error
  | failure => exact .failure
  | ok => exact separatedListRest hr hp (by simp) _ _ _

theorem escapedTransformLoop {normal transform : Parser E Bytes} {control : UInt8}
    (hnormal : PrefixStable normal) (htransform : PrefixStable transform) {fuel fuel' : ℕ}
    (hfuel : fuel ≤ fuel') (res i t : Bytes) :
    Extends t (escapedTransformLoop normal control transform fuel res i)
      (escapedTransformLoop normal control transform fuel' res (i ++ t)) := by
  induction fuel generalizing fuel' res i with
  | zero => exact .incomplete
  | succ fuel ih =>
    obtain ⟨fuel', rfl⟩ : ∃ n, fuel' = n + 1 := ⟨fuel' - 1, by omega⟩
    have hfuel : fuel ≤ fuel' := Nat.le_of_succ_le_succ hfuel
    -- An escape or a run that ends with the input may go on.
    have hnext : ∀ (i₁ o : Bytes),
        Extends t
          (if i₁.isEmpty then .error .incomplete
            else StreamParser.escapedTransformLoop normal control transform fuel (res ++ o) i₁)
          (if (i₁ ++ t).isEmpty then .error .incomplete
            else StreamParser.escapedTransformLoop normal control transform fuel' (res ++ o)
              (i₁ ++ t)) := by
      intro i₁ o
      cases i₁ with
      | nil => exact .incomplete
      | cons b i₁ => exact ih hfuel _ _
    cases i with
    | nil => exact .incomplete
    | cons c i =>
      have hext := hnormal (c :: i) t
      rw [List.cons_append] at hext ⊢
      rw [StreamParser.escapedTransformLoop, StreamParser.escapedTransformLoop]
      generalize normal (c :: i) = s at hext ⊢
      generalize normal (c :: (i ++ t)) = s' at hext ⊢
      cases hext with
      | incomplete => exact .incomplete
      | failure => exact .failure
      | @ok i₁ o => exact hnext i₁ o
      | error =>
        dsimp only
        by_cases hc : c = control
        · rw [if_pos hc, if_pos hc]
          cases i with
          | nil => exact .incomplete
          | cons b i =>
            have hesc := htransform (b :: i) t
            rw [List.cons_append] at hesc ⊢
            rw [if_neg (by simp), if_neg (by simp)]
            generalize transform (b :: i) = s at hesc ⊢
            generalize transform (b :: (i ++ t)) = s' at hesc ⊢
            cases hesc with
            | incomplete => exact .incomplete
            | error => exact .error
            | failure => exact .failure
            | @ok i₁ o => exact hnext i₁ o
        · rw [if_neg hc, if_neg hc]
          exact .ok

theorem escapedTransform {normal transform : Parser E Bytes} (control : UInt8)
    (hnormal : PrefixStable normal) (htransform : PrefixStable transform) :
    PrefixStable (escapedTransform normal control transform) :=
  fun _ _ => escapedTransformLoop hnormal htransform (by simp) _ _ _

end PrefixStable

/-- Returns what was read along with the value. -/
def consumed (p : Parser E α) : Parser E (Bytes × α) := fun i =>
  match p i with
  | .ok (rest, a) => .ok (rest, (i.take (i.length - rest.length), a))
  | .error e => .error e

theorem consumed_of_ok {p : Parser E α} {read rest : Bytes} {a : α}
    (h : p (read ++ rest) = .ok (rest, a)) : consumed p (read ++ rest) = .ok (rest, (read, a)) := by
  rw [consumed, h]
  dsimp only
  rw [List.length_append, Nat.add_sub_cancel, List.take_left]

theorem consumed_of_error {p : Parser E α} {i : Bytes} {e : Err E} (h : p i = .error e) :
    consumed p i = .error e := by
  rw [consumed, h]

end Snix.StreamParser
