import Mathlib.Data.List.Forall2
import Mathlib.Order.Compare

/-!
# Lexicographic order

Two lists are compared by the first elements that are not the same, and a list is less than what
goes on after it. Elements need not all be comparable: a comparison may not have a result.

## Main definitions

- `LexAll` — the lexicographic order of two lists, if there is one

## Main results

- `LexAll.eq_iff` — lists are equal if their elements are the same
- `LexAll.unique`, `LexAll.swap`, `LexAll.trans` — the order is one, as far as that of the elements is
-/

namespace Snix

variable {α : Type}

/-- The order of two lists, from which elements are the same and the order of those that are not. -/
inductive LexAll (same : α → α → Prop) (decides : α → α → Ordering → Prop) :
    List α → List α → Ordering → Prop
  | nil : LexAll same decides [] [] .eq
  | shorter (b : α) (l : List α) : LexAll same decides [] (b :: l) .lt
  | longer (a : α) (l : List α) : LexAll same decides (a :: l) [] .gt
  | same {a b : α} {l₁ l₂ : List α} {o : Ordering} (h : same a b) (hl : LexAll same decides l₁ l₂ o) :
    LexAll same decides (a :: l₁) (b :: l₂) o
  | decided {a b : α} {o : Ordering} (l₁ l₂ : List α) (h : decides a b o) (ho : o ≠ .eq) :
    LexAll same decides (a :: l₁) (b :: l₂) o

namespace LexAll

variable {same : α → α → Prop} {decides : α → α → Ordering → Prop} {l₁ l₂ l₃ : List α}
  {o o' : Ordering}

/-- Lists are equal if their elements are the same. -/
theorem eq_iff : LexAll same decides l₁ l₂ .eq ↔ List.Forall₂ same l₁ l₂ := by
  constructor
  · intro h
    generalize ho : Ordering.eq = o at h
    induction h with
    | nil => exact .nil
    | shorter | longer => cases ho
    | same h _ ih => exact .cons h (ih ho)
    | decided _ _ _ hne => exact absurd ho.symm hne
  · intro h
    induction h with
    | nil => exact .nil
    | cons h _ ih => exact .same h ih

/-- There is at most one order, if this holds of the elements. -/
theorem unique (hsame : ∀ a ∈ l₁, ∀ b o, same a b → decides a b o → o = .eq)
    (hone : ∀ a ∈ l₁, ∀ b o o', decides a b o → decides a b o' → o = o')
    (h : LexAll same decides l₁ l₂ o) (h' : LexAll same decides l₁ l₂ o') : o = o' := by
  induction h with
  | nil | shorter | longer => cases h'; rfl
  | @same a b l₁ l₂ o hab _ ih =>
    cases h' with
    | same _ h' =>
      exact ih (fun a ha => hsame a (List.mem_cons_of_mem _ ha))
        (fun a ha => hone a (List.mem_cons_of_mem _ ha)) h'
    | decided _ _ h' hne => exact absurd (hsame a List.mem_cons_self b _ hab h') hne
  | @decided a b o _ _ hab hne =>
    cases h' with
    | same h' _ => exact absurd (hsame a List.mem_cons_self b _ h' hab) hne
    | decided _ _ h' _ => exact hone a List.mem_cons_self b _ _ hab h'

theorem swap (hsame : ∀ a ∈ l₁, ∀ b, same a b → same b a)
    (hdecides : ∀ a ∈ l₁, ∀ b o, decides a b o → decides b a o.swap)
    (h : LexAll same decides l₁ l₂ o) : LexAll same decides l₂ l₁ o.swap := by
  induction h with
  | nil => exact .nil
  | shorter b l => exact .longer b l
  | longer a l => exact .shorter a l
  | @same a b l₁ l₂ o hab _ ih =>
    exact .same (hsame a List.mem_cons_self b hab)
      (ih (fun a ha => hsame a (List.mem_cons_of_mem _ ha))
        fun a ha => hdecides a (List.mem_cons_of_mem _ ha))
  | @decided a b o _ _ hab hne =>
    refine .decided _ _ (hdecides a List.mem_cons_self b o hab) ?_
    intro h
    cases o with
    | lt | gt => cases h
    | eq => exact hne rfl

/-- Lists with the same elements are compared in the same way. -/
theorem of_same_left (hsame : ∀ a ∈ l₁, ∀ b c, same a b → same b c → same a c)
    (hdecides : ∀ a ∈ l₁, ∀ b c o, same a b → decides b c o → decides a c o)
    (h : List.Forall₂ same l₁ l₂) (hl : LexAll same decides l₂ l₃ o) :
    LexAll same decides l₁ l₃ o := by
  induction h generalizing l₃ with
  | nil => exact hl
  | @cons a b l₁ l₂ hab _ ih =>
    cases hl with
    | longer => exact .longer _ _
    | same hbc hl =>
      exact .same (hsame a List.mem_cons_self _ _ hab hbc)
        (ih (fun a ha => hsame a (List.mem_cons_of_mem _ ha))
          (fun a ha => hdecides a (List.mem_cons_of_mem _ ha)) hl)
    | decided _ _ hbc hne => exact .decided _ _ (hdecides a List.mem_cons_self _ _ _ hab hbc) hne

theorem of_same_right (hsame : ∀ a ∈ l₁, ∀ b c, same a b → same b c → same a c)
    (hdecides : ∀ a ∈ l₁, ∀ b c o, decides a b o → same b c → decides a c o)
    (hl : LexAll same decides l₁ l₂ o) (h : List.Forall₂ same l₂ l₃) :
    LexAll same decides l₁ l₃ o := by
  induction hl generalizing l₃ with
  | nil =>
    cases h
    exact .nil
  | shorter b l =>
    cases h
    exact .shorter _ _
  | longer a l =>
    cases h
    exact .longer _ _
  | @same a b l₁ l₂ o hab _ ih =>
    cases h with
    | cons hbc h =>
      exact .same (hsame a List.mem_cons_self _ _ hab hbc)
        (ih (fun a ha => hsame a (List.mem_cons_of_mem _ ha))
          (fun a ha => hdecides a (List.mem_cons_of_mem _ ha)) h)
  | @decided a b o _ _ hab hne =>
    cases h with
    | cons hbc h => exact .decided _ _ (hdecides a List.mem_cons_self _ _ _ hab hbc) hne

/-- The order is transitive. By induction on the first comparison. -/
theorem trans (hsame : ∀ a ∈ l₁, ∀ b c, same a b → same b c → same a c)
    (hleft : ∀ a ∈ l₁, ∀ b c o, same a b → decides b c o → decides a c o)
    (hright : ∀ a ∈ l₁, ∀ b c o, decides a b o → same b c → decides a c o)
    (hdecides : ∀ a ∈ l₁, ∀ b c, decides a b .lt → decides b c .lt → decides a c .lt)
    (h : LexAll same decides l₁ l₂ .lt) (h' : LexAll same decides l₂ l₃ .lt) :
    LexAll same decides l₁ l₃ .lt := by
  generalize ho : Ordering.lt = o at h
  induction h generalizing l₃ with
  | nil | longer => cases ho
  | shorter b l =>
    cases h' with
    | same | decided => exact .shorter _ _
  | @same a b l₁ l₂ o hab _ ih =>
    subst ho
    cases h' with
    | same hbc h' =>
      exact .same (hsame a List.mem_cons_self _ _ hab hbc)
        (ih (fun a ha => hsame a (List.mem_cons_of_mem _ ha))
          (fun a ha => hleft a (List.mem_cons_of_mem _ ha))
          (fun a ha => hright a (List.mem_cons_of_mem _ ha))
          (fun a ha => hdecides a (List.mem_cons_of_mem _ ha)) h' rfl)
    | decided _ _ hbc hne => exact .decided _ _ (hleft a List.mem_cons_self _ _ _ hab hbc) hne
  | @decided a b o _ _ hab hne =>
    subst ho
    cases h' with
    | same hbc _ => exact .decided _ _ (hright a List.mem_cons_self _ _ _ hab hbc) hne
    | decided _ _ hbc _ => exact .decided _ _ (hdecides a List.mem_cons_self _ _ hab hbc) hne

/-- A proper prefix is less. -/
theorem lt_of_append (hsame : ∀ a ∈ l₁, same a a) (b : α) (l : List α) :
    LexAll same decides l₁ (l₁ ++ b :: l) .lt := by
  induction l₁ with
  | nil => exact .shorter b l
  | cons a l₁ ih =>
    exact .same (hsame a List.mem_cons_self) (ih fun a ha => hsame a (List.mem_cons_of_mem _ ha))

end LexAll

end Snix
