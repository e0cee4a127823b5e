import Mathlib.Data.List.Infix
import Mathlib.Data.Option.Basic

/-!
# What is at each path

A file tree as a map from paths to what is there. A value that is put at a path
replaces what was there, and everything below it is gone, unless both are directories.
Placing a value at a path puts directories above it first.

## Main definitions

- `PathMap` with `put`, `mkdirs`, `place`
- `Nested` — what has something below it is a directory

## Main results

- `place_eq` — what is at each path after placing a value
-/

namespace Snix

/-- What is at each path. -/
abbrev PathMap (γ ν : Type) := List γ → Option ν

namespace PathMap

variable {γ ν : Type} [DecidableEq γ] (isDir : ν → Bool) (dir : List γ → ν)

/-- Puts a value at a path. A directory that is put again keeps what is below it. -/
def put (path : List γ) (v : ν) (t : PathMap γ ν) : PathMap γ ν := fun q =>
  if q = path then some v
  else if path <+: q ∧ ¬(isDir v = true ∧ (t path).any isDir = true) then none
  else t q

/-- Puts directories one in another. -/
def mkdirs : List γ → List γ → PathMap γ ν → PathMap γ ν
  | _, [], t => t
  | above, name :: names, t =>
    mkdirs (above ++ [name]) names (put isDir (above ++ [name]) (dir (above ++ [name])) t)

/-- Puts a value at a path, in directories. -/
def place (path : List γ) (v : ν) (t : PathMap γ ν) : PathMap γ ν :=
  put isDir path v (mkdirs isDir dir [] path.dropLast t)

/-- What has something below it is a directory. -/
def Nested (t : PathMap γ ν) : Prop :=
  ∀ q r, q ≠ [] → q <+: r → q ≠ r → t r ≠ none → (t q).any isDir = true

variable {isDir dir} {t : PathMap γ ν}

omit [DecidableEq γ] in
theorem Nested.eq_none (ht : Nested isDir t) {q r : List γ} (hne : q ≠ []) (hpre : q <+: r)
    (hqr : q ≠ r) (hq : (t q).any isDir = false) : t r = none := by
  by_contra hr
  rw [ht q r hne hpre hqr hr] at hq
  cases hq

/-- Below what is no directory is nothing that could be lost. -/
theorem put_eq (ht : Nested isDir t) {path : List γ} (hne : path ≠ []) (v : ν) (q : List γ) :
    put isDir path v t q =
      if q = path then some v else if path <+: q ∧ isDir v = false then none else t q := by
  unfold put
  by_cases hq : q = path
  · rw [if_pos hq, if_pos hq]
  · rw [if_neg hq, if_neg hq]
    by_cases hpre : path <+: q
    · cases hv : isDir v with
      | false => simp [hpre]
      | true =>
        cases hold : (t path).any isDir with
        | true => simp
        | false =>
          have hnone := ht.eq_none hne hpre (Ne.symm hq) hold
          simp [hpre, hnone]
    · rw [if_neg fun h => hpre h.1, if_neg fun h => hpre h.1]

theorem nested_put_dir (hdir : ∀ q, isDir (dir q) = true) (ht : Nested isDir t) {above : List γ}
    (name : γ) (habove : above = [] ∨ (t above).any isDir = true) :
    Nested isDir (put isDir (above ++ [name]) (dir (above ++ [name])) t) := by
  have hput := put_eq ht (List.concat_ne_nil name above) (dir (above ++ [name]))
  simp only [hdir, Bool.true_eq_false, and_false, if_false] at hput
  intro q r hne hpre hqr hr
  rw [hput] at hr ⊢
  by_cases hq : q = above ++ [name]
  · rw [if_pos hq]
    exact hdir _
  · rw [if_neg hq]
    by_cases hr' : r = above ++ [name]
    · -- the directories above it are there
      rw [hr', List.prefix_concat_iff] at hpre
      have hqabove := hpre.resolve_left hq
      rcases habove with hnil | hany
      · rw [hnil] at hqabove
        exact absurd (List.prefix_nil.mp hqabove) hne
      · by_cases heq : q = above
        · rw [heq]
          exact hany
        · apply ht q above hne hqabove heq
          intro hnone
          rw [hnone] at hany
          cases hany
    · rw [if_neg hr'] at hr
      exact ht q r hne hpre hqr hr

theorem mkdirs_spec (hdir : ∀ q, isDir (dir q) = true) (names : List γ) {above : List γ}
    (ht : Nested isDir t) (habove : above = [] ∨ (t above).any isDir = true) :
    Nested isDir (mkdirs isDir dir above names t) ∧
      ∀ q, mkdirs isDir dir above names t q =
        if above <+: q ∧ above ≠ q ∧ q <+: above ++ names then some (dir q) else t q := by
  induction names generalizing above t with
  | nil =>
    refine ⟨ht, fun q => (if_neg ?_).symm⟩
    rintro ⟨hpre, hne, hle⟩
    rw [List.append_nil] at hle
    exact hne (hpre.eq_of_length_le hle.length_le)
  | cons name names ih =>
    have hput := put_eq ht (List.concat_ne_nil name above) (dir (above ++ [name]))
    simp only [hdir, Bool.true_eq_false, and_false, if_false] at hput
    obtain ⟨hnested, hvalue⟩ := ih (nested_put_dir hdir ht name habove) (.inr (by
      rw [hput, if_pos rfl]
      exact hdir _))
    refine ⟨hnested, fun q => ?_⟩
    unfold mkdirs
    rw [hvalue, hput, List.append_assoc, List.singleton_append]
    by_cases hq : q = above ++ [name]
    · have hpre : above ++ [name] <+: above ++ name :: names := ⟨names, by simp⟩
      rw [if_neg fun h => h.2.1 hq.symm, if_pos hq, if_pos]
      · rw [hq]
      · rw [hq]
        exact ⟨List.prefix_append above [name], by simp, hpre⟩
    · rw [if_neg hq]
      congr 1
      rw [eq_iff_iff]
      constructor
      · rintro ⟨hpre, -, hle⟩
        refine ⟨(List.prefix_append above [name]).trans hpre, ?_, hle⟩
        rintro rfl
        have hlen := hpre.length_le
        rw [List.length_append, List.length_singleton] at hlen
        omega
      · rintro ⟨⟨l, rfl⟩, hne, hle⟩
        cases l with
        | nil => exact absurd (List.append_nil above).symm hne
        | cons c l =>
          have hc := List.cons_prefix_cons.mp (List.prefix_append_right_inj above |>.mp hle)
          rw [hc.1] at hq ⊢
          refine ⟨⟨l, by simp⟩, Ne.symm hq, ?_⟩
          rw [List.prefix_append_right_inj]
          exact List.cons_prefix_cons.mpr ⟨rfl, hc.2⟩

/-- What is at each path after placing a value: the directories above it, the value itself, and what
    was there before, unless it was below something that is no directory now. -/
theorem place_eq (hdir : ∀ q, isDir (dir q) = true) (ht : Nested isDir t) {path : List γ}
    (hne : path ≠ []) (v : ν) (q : List γ) :
    place isDir dir path v t q =
      if q = path then some v
      else if q ≠ [] ∧ q <+: path then some (dir q)
      else if path <+: q ∧ isDir v = false then none
      else t q := by
  have habove : ([] : List γ) = [] ∨ (t []).any isDir = true := .inl rfl
  obtain ⟨hnested, hvalue⟩ := mkdirs_spec hdir path.dropLast ht habove
  unfold place
  rw [put_eq hnested hne, hvalue, List.nil_append]
  by_cases hq : q = path
  · rw [if_pos hq, if_pos hq]
  · rw [if_neg hq, if_neg hq]
    have hdrop : q <+: path ↔ q <+: path.dropLast := by
      conv_lhs => rw [← List.dropLast_append_getLast hne, List.prefix_concat_iff,
        List.dropLast_append_getLast hne]
      exact or_iff_right hq
    by_cases habove : q ≠ [] ∧ q <+: path
    · have hnot : ¬path <+: q := fun h => hq (habove.2.eq_of_length_le h.length_le)
      rw [if_neg fun h => hnot h.1, if_pos habove, if_pos]
      exact ⟨List.nil_prefix, habove.1.symm, hdrop.mp habove.2⟩
    · rw [if_neg habove]
      have hnot : ¬([] <+: q ∧ [] ≠ q ∧ q <+: path.dropLast) :=
        fun h => habove ⟨h.2.1.symm, hdrop.mpr h.2.2⟩
      rw [if_neg hnot]

end PathMap

end Snix
