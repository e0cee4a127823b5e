import Snix.BuildGlue.Builder

/-!
# Variables that are passed as files

`passAsFile` is a list of variables, separated by spaces. They are moved into files one by one, out
of the variables and into the same ones: the variable that names a file may be listed itself, and
then it matters which of the two comes first. An empty list is read as a list of one empty name.

## Main definitions

- `Moved` — what is to become of the variables and files, in whatever order they are moved
- `withPassAsFile` — an environment with a list of variables

## Main results

- `Moved.eq_of_perm` — the order makes no difference to what is asked for
- `get?_of_passAsFileLoop` — the variables after the loop
- `handlePassAsFile_iff` — when the listed variables are moved, in whatever order they are listed
-/

namespace Snix.BuildGlue

variable {sha256 : Bytes → ByteArr 32} {names names' : List Bytes} {x y k : Bytes}
  {vars files : BytesMap} {before after after' : BytesMap × BytesMap}

/-- The variable that names the file for `x`. -/
def pathVariable (x : Bytes) : Bytes := x ++ ascii "Path"

/-- The path of the file for `x`, as it is named. -/
def attrPath (sha256 : Bytes → ByteArr 32) (x : Bytes) : Bytes := (calculatePassAsFileEnv sha256 x).2

/-- The path of the file for `x`, as it is put into the build. -/
def attrFile (sha256 : Bytes → ByteArr 32) (x : Bytes) : Bytes := (attrPath sha256 x).drop 1

/-- The variables of the given names are moved into files of their own, and others name these. Nothing
    else changes. -/
structure Moved (sha256 : Bytes → ByteArr 32) (names : List Bytes)
    (before after : BytesMap × BytesMap) : Prop where
  distinct : (names.map (attrFile sha256)).Nodup
  contents : ∀ x ∈ names, after.2.get? (attrFile sha256 x) = before.1.get? x
  path : ∀ x ∈ names, after.1.get? (pathVariable x) = some (attrPath sha256 x)
  vars : ∀ k, (∀ x ∈ names, pathVariable x ≠ k) →
    after.1.get? k = if k ∈ names then none else before.1.get? k
  files : ∀ f, (∀ x ∈ names, attrFile sha256 x ≠ f) → after.2.get? f = before.2.get? f

theorem Moved.perm (h : Moved sha256 names before after) (hperm : names.Perm names') :
    Moved sha256 names' before after where
  distinct := (hperm.map _).nodup_iff.mp h.distinct
  contents x hx := h.contents x (hperm.mem_iff.mpr hx)
  path x hx := h.path x (hperm.mem_iff.mpr hx)
  vars k hk := by
    rw [h.vars k fun x hx => hk x (hperm.mem_iff.mp hx)]
    simp only [hperm.mem_iff]
  files f hf := h.files f fun x hx => hf x (hperm.mem_iff.mp hx)

/-- There is one way to move variables, whatever the order. -/
theorem Moved.eq_of_perm (h : Moved sha256 names before after)
    (h' : Moved sha256 names' before after') (hperm : names.Perm names') : after = after' := by
  replace h := h.perm hperm
  refine Prod.ext (SortedMap.ext_get? fun k => ?_) (SortedMap.ext_get? fun f => ?_)
  · by_cases hk : ∃ x ∈ names', pathVariable x = k
    · obtain ⟨x, hx, rfl⟩ := hk
      rw [h.path x hx, h'.path x hx]
    · have hk : ∀ x ∈ names', pathVariable x ≠ k := fun x hx heq => hk ⟨x, hx, heq⟩
      rw [h.vars k hk, h'.vars k hk]
  · by_cases hf : ∃ x ∈ names', attrFile sha256 x = f
    · obtain ⟨x, hx, rfl⟩ := hf
      rw [h.contents x hx, h'.contents x hx]
    · have hf : ∀ x ∈ names', attrFile sha256 x ≠ f := fun x hx heq => hf ⟨x, hx, heq⟩
      rw [h.files f hf, h'.files f hf]

theorem pathVariable_injective : Function.Injective pathVariable := fun _ _ => List.append_cancel_right

theorem pathVariable_ne_self : pathVariable x ≠ x := by
  intro h
  have hlen := congrArg List.length h
  rw [pathVariable, List.length_append] at hlen
  exact absurd hlen (Nat.ne_of_gt (Nat.lt_add_of_pos_right (by decide)))

/-- Files have different paths if the digests of the variables they are for are different. -/
theorem eq_of_attrFile_eq (h : attrFile sha256 x = attrFile sha256 y) : sha256 x = sha256 y := by
  have hdrop : ∀ z, attrFile sha256 z = ascii "build/.attr-" ++ Nixbase32.encode (sha256 z).val :=
    fun _ => rfl
  rw [hdrop, hdrop] at h
  have hdecode := congrArg Nixbase32.decode (List.append_cancel_left h)
  rw [Nixbase32.decode_encode, Nixbase32.decode_encode] at hdecode
  exact Subtype.ext (Except.ok.inj hdecode)

-- ====================
-- The loop
-- ====================

/-- The variables after one of them was moved. -/
theorem get?_step {path : Bytes} :
    ((vars.erase x).insert (pathVariable x) path).get? k =
      if pathVariable x = k then some path else if x = k then none else vars.get? k := by
  rw [SortedMap.get?_insert, SortedMap.get?_erase]

theorem passAsFileLoop_cons_eq_ok_iff :
    passAsFileLoop sha256 (x :: names) (vars, files) = .ok after ↔
      ∃ contents, vars.get? x = some contents ∧
        passAsFileLoop sha256 names ((vars.erase x).insert (pathVariable x) (attrPath sha256 x),
          files.insert (attrFile sha256 x) contents) = .ok after := by
  rw [passAsFileLoop]
  cases vars.get? x with
  | none =>
    refine iff_of_false (fun h => by cases h) ?_
    rintro ⟨_, h, -⟩
    cases h
  | some contents =>
    constructor
    · intro h
      exact ⟨contents, rfl, h⟩
    · rintro ⟨contents', hcontents, h⟩
      cases hcontents
      exact h

/-- What becomes of the variables that name no file. -/
theorem get?_of_passAsFileLoop (h : passAsFileLoop sha256 names (vars, files) = .ok after)
    (hk : ∀ x ∈ names, pathVariable x ≠ k) :
    after.1.get? k = if k ∈ names then none else vars.get? k := by
  induction names generalizing vars files with
  | nil =>
    cases h
    rfl
  | cons x names ih =>
    obtain ⟨hhead, htail⟩ := List.forall_mem_cons.mp hk
    obtain ⟨contents, -, hrest⟩ := passAsFileLoop_cons_eq_ok_iff.mp h
    rw [ih hrest htail, get?_step, if_neg hhead]
    by_cases hxk : x = k
    · subst hxk
      rw [if_pos rfl, ite_self, if_pos List.mem_cons_self]
    · simp only [List.mem_cons, Ne.symm hxk, false_or, if_neg hxk]

/-- What becomes of the files for no listed variable. -/
theorem files_of_passAsFileLoop {f : Bytes}
    (h : passAsFileLoop sha256 names (vars, files) = .ok after)
    (hf : ∀ x ∈ names, attrFile sha256 x ≠ f) : after.2.get? f = files.get? f := by
  induction names generalizing vars files with
  | nil =>
    cases h
    rfl
  | cons x names ih =>
    obtain ⟨hhead, htail⟩ := List.forall_mem_cons.mp hf
    obtain ⟨contents, -, hrest⟩ := passAsFileLoop_cons_eq_ok_iff.mp h
    rw [ih hrest htail, SortedMap.get?_insert, if_neg hhead]

/-- None of the listed variables is one that names a file. -/
def Fresh (names : List Bytes) : Prop := ∀ x ∈ names, pathVariable x ∉ names

theorem Fresh.tail (h : Fresh (x :: names)) : Fresh names :=
  fun y hy hmem => h y (List.mem_cons_of_mem _ hy) (List.mem_cons_of_mem _ hmem)

theorem get?_step_of_mem {path : Bytes} (hfresh : Fresh (x :: names)) (hx : x ∉ names)
    (hy : y ∈ names) : ((vars.erase x).insert (pathVariable x) path).get? y = vars.get? y := by
  have hpath : pathVariable x ≠ y :=
    fun h => hfresh x List.mem_cons_self (List.mem_cons_of_mem _ (h ▸ hy))
  have hne : x ≠ y := fun h => hx (h ▸ hy)
  rw [get?_step, if_neg hpath, if_neg hne]

/-- Existing variables are moved. -/
theorem exists_passAsFileLoop (sha256 : Bytes → ByteArr 32) (files : BytesMap)
    (hfresh : Fresh names) (hnodup : names.Nodup)
    (hexists : ∀ x ∈ names, (vars.get? x).isSome = true) :
    ∃ after, passAsFileLoop sha256 names (vars, files) = .ok after := by
  induction names generalizing vars files with
  | nil => exact ⟨_, rfl⟩
  | cons x names ih =>
    obtain ⟨hx, hnodup⟩ := List.nodup_cons.mp hnodup
    obtain ⟨hhead, htail⟩ := List.forall_mem_cons.mp hexists
    obtain ⟨contents, hcontents⟩ := Option.isSome_iff_exists.mp hhead
    have hrest : ∀ y ∈ names, (((vars.erase x).insert (pathVariable x) (attrPath sha256 x)).get?
        y).isSome = true := by
      intro y hy
      rw [get?_step_of_mem hfresh hx hy]
      exact htail y hy
    obtain ⟨after, hafter⟩ := ih (files.insert (attrFile sha256 x) contents) hfresh.tail hnodup
      hrest
    exact ⟨after, passAsFileLoop_cons_eq_ok_iff.mpr ⟨contents, hcontents, hafter⟩⟩

/-- The loop moves the variables if none of them names a file. -/
theorem moved_of_passAsFileLoop (hfresh : Fresh names) (hnodup : names.Nodup)
    (hdistinct : (names.map (attrFile sha256)).Nodup)
    (h : passAsFileLoop sha256 names (vars, files) = .ok after) :
    Moved sha256 names (vars, files) after := by
  induction names generalizing vars files with
  | nil =>
    cases h
    exact ⟨hdistinct, fun _ hx => absurd hx List.not_mem_nil,
      fun _ hx => absurd hx List.not_mem_nil, fun _ _ => rfl, fun _ _ => rfl⟩
  | cons x names ih =>
    obtain ⟨hx, hnodup'⟩ := List.nodup_cons.mp hnodup
    obtain ⟨hfile, hdistinct'⟩ := List.nodup_cons.mp hdistinct
    obtain ⟨contents, hcontents, hrest⟩ := passAsFileLoop_cons_eq_ok_iff.mp h
    have hmoved := ih hfresh.tail hnodup' hdistinct' hrest
    refine ⟨hdistinct, ?_, ?_, fun k hk => get?_of_passAsFileLoop h hk,
      fun f hf => files_of_passAsFileLoop h hf⟩
    · refine List.forall_mem_cons.mpr ⟨?_, fun y hy => ?_⟩
      · have hne : ∀ y ∈ names, attrFile sha256 y ≠ attrFile sha256 x :=
          fun y hy heq => hfile (heq ▸ List.mem_map_of_mem hy)
        rw [files_of_passAsFileLoop hrest hne, SortedMap.get?_insert, if_pos rfl, hcontents]
      · rw [hmoved.contents y hy]
        exact get?_step_of_mem hfresh hx hy
    · refine List.forall_mem_cons.mpr ⟨?_, hmoved.path⟩
      have hne : ∀ y ∈ names, pathVariable y ≠ pathVariable x :=
        fun y hy heq => hx (pathVariable_injective heq ▸ hy)
      have hunlisted : pathVariable x ∉ names :=
        fun hmem => hfresh x List.mem_cons_self (List.mem_cons_of_mem _ hmem)
      rw [get?_of_passAsFileLoop hrest hne, if_neg hunlisted, get?_step, if_pos rfl]

-- ====================
-- The list
-- ====================

/-- The environment with a list of variables to move. -/
def withPassAsFile (environment : BytesMap) (names : List Bytes) : BytesMap :=
  environment.insert (ascii "passAsFile") ([32].intercalate names)

variable {environment : BytesMap}

theorem isSome_withPassAsFile :
    ((withPassAsFile environment names).get? x).isSome = true ↔
      x = ascii "passAsFile" ∨ (environment.get? x).isSome = true := by
  rw [withPassAsFile, SortedMap.get?_insert]
  by_cases hx : ascii "passAsFile" = x
  · rw [if_pos hx]
    exact iff_of_true rfl (.inl hx.symm)
  · rw [if_neg hx, or_iff_right (Ne.symm hx)]

theorem utf8Valid_intercalate (h : ∀ x ∈ names, utf8Valid x = true) :
    utf8Valid ([32].intercalate names) = true := by
  induction names with
  | nil => rfl
  | cons x names ih =>
    obtain ⟨hhead, htail⟩ := List.forall_mem_cons.mp h
    cases names with
    | nil =>
      rw [List.intercalate_singleton]
      exact hhead
    | cons y names =>
      rw [List.intercalate_cons_cons]
      exact utf8Valid_append (utf8Valid_append hhead rfl) (ih htail)

/-- The list is split where it was joined. -/
theorem handlePassAsFile_withPassAsFile (hne : names ≠ []) (hutf8 : ∀ x ∈ names, utf8Valid x = true)
    (hspace : ∀ x ∈ names, 32 ∉ x) :
    handlePassAsFile sha256 (withPassAsFile environment names, files) =
      passAsFileLoop sha256 names (withPassAsFile environment names, files) := by
  have hlist : (withPassAsFile environment names).get? (ascii "passAsFile") =
      some ([32].intercalate names) := by
    rw [withPassAsFile, SortedMap.get?_insert, if_pos rfl]
  rw [handlePassAsFile, hlist]
  dsimp only
  rw [if_pos (utf8Valid_intercalate hutf8), List.splitOn_intercalate 32 hspace hne]

/-- The empty list is one of an empty name. -/
theorem handlePassAsFile_nil :
    handlePassAsFile sha256 (withPassAsFile environment [], files) =
      passAsFileLoop sha256 [[]] (withPassAsFile environment [], files) := by
  rw [handlePassAsFile, withPassAsFile, SortedMap.get?_insert, if_pos rfl]
  rfl

/-- The empty list fails, or moves a variable that is not listed. -/
theorem not_moved_nil (h : handlePassAsFile sha256 (withPassAsFile environment [], files) = .ok after) :
    ¬Moved sha256 [] (withPassAsFile environment [], files) after := by
  intro hmoved
  rw [handlePassAsFile_nil] at h
  obtain ⟨contents, hcontents, -⟩ := passAsFileLoop_cons_eq_ok_iff.mp h
  have hkept := hmoved.vars [] fun _ hx => absurd hx List.not_mem_nil
  have hgone := get?_of_passAsFileLoop (k := []) h (List.forall_mem_singleton.mpr (by decide))
  rw [if_pos List.mem_cons_self] at hgone
  rw [if_neg List.not_mem_nil, hgone] at hkept
  exact absurd (hkept.trans hcontents) (by simp)

/-- A variable that is moved after the one whose file it is to name is gone. -/
theorem not_moved_cons (hx : x ∉ names) (hpath : pathVariable x ∈ names)
    (h : passAsFileLoop sha256 (x :: names) before = .ok after) :
    ¬Moved sha256 (x :: names) before after := by
  intro hmoved
  obtain ⟨contents, -, hrest⟩ := passAsFileLoop_cons_eq_ok_iff.mp h
  have hne : ∀ y ∈ names, pathVariable y ≠ pathVariable x :=
    fun y hy heq => hx (pathVariable_injective heq ▸ hy)
  have hgone := get?_of_passAsFileLoop hrest hne
  rw [if_pos hpath, hmoved.path x List.mem_cons_self] at hgone
  cases hgone

/-- The listed variables are moved in whatever order they are listed, if there are any, and none of
    them is to name the file of another. -/
theorem handlePassAsFile_iff (sha256 : Bytes → ByteArr 32) (environment files : BytesMap)
    (names : List Bytes) (hutf8 : ∀ x ∈ names, utf8Valid x = true) (hspace : ∀ x ∈ names, 32 ∉ x)
    (hnodup : names.Nodup)
    (hexists : ∀ x ∈ names, ((withPassAsFile environment names).get? x).isSome = true)
    (collisionFree : ∀ x ∈ names, ∀ y ∈ names, sha256 x = sha256 y → x = y) :
    (∀ names', names.Perm names' → ∃ after,
        handlePassAsFile sha256 (withPassAsFile environment names', files) = .ok after ∧
          Moved sha256 names (withPassAsFile environment names', files) after) ↔
      names ≠ [] ∧ ∀ x ∈ names, x ++ ascii "Path" ∉ names := by
  have hhandle : ∀ names', names.Perm names' → names' ≠ [] →
      handlePassAsFile sha256 (withPassAsFile environment names', files) =
        passAsFileLoop sha256 names' (withPassAsFile environment names', files) := by
    intro names' hperm hne
    exact handlePassAsFile_withPassAsFile hne (fun x hx => hutf8 x (hperm.mem_iff.mpr hx))
      fun x hx => hspace x (hperm.mem_iff.mpr hx)
  constructor
  · intro h
    have hne : names ≠ [] := by
      rintro rfl
      obtain ⟨after, hafter, hmoved⟩ := h [] (List.Perm.refl _)
      exact not_moved_nil hafter hmoved
    refine ⟨hne, fun x hx hpath => ?_⟩
    have hperm := List.perm_cons_erase hx
    obtain ⟨after, hafter, hmoved⟩ := h _ hperm
    rw [hhandle _ hperm (List.cons_ne_nil _ _)] at hafter
    have hpath : pathVariable x ∈ names.erase x :=
      (List.mem_erase_of_ne pathVariable_ne_self).mpr hpath
    exact not_moved_cons hnodup.not_mem_erase hpath hafter (hmoved.perm hperm)
  · rintro ⟨hne, hfresh⟩ names' hperm
    have hfresh : Fresh names' := by
      intro x hx hpath
      exact hfresh x (hperm.mem_iff.mpr hx) (hperm.mem_iff.mpr hpath)
    have hdistinct : (names'.map (attrFile sha256)).Nodup := by
      refine List.Nodup.map_on ?_ (hperm.nodup_iff.mp hnodup)
      intro x hx y hy heq
      exact collisionFree x (hperm.mem_iff.mpr hx) y (hperm.mem_iff.mpr hy) (eq_of_attrFile_eq heq)
    have hexists : ∀ x ∈ names', ((withPassAsFile environment names').get? x).isSome = true := by
      intro x hx
      rw [isSome_withPassAsFile]
      exact isSome_withPassAsFile.mp (hexists x (hperm.mem_iff.mpr hx))
    have hne : names' ≠ [] := fun hnil => hne (List.perm_nil.mp (hnil ▸ hperm))
    obtain ⟨after, hafter⟩ := exists_passAsFileLoop sha256 files hfresh
      (hperm.nodup_iff.mp hnodup) hexists
    have hmoved := moved_of_passAsFileLoop hfresh (hperm.nodup_iff.mp hnodup) hdistinct hafter
    exact ⟨after, (hhandle names' hperm hne).trans hafter, hmoved.perm hperm.symm⟩

def barAndBaz : List Bytes := [ascii "bar", ascii "baz"]

/-- Each of the two has the name of the other as its value. -/
def barAndBazVars : BytesMap := .ofList [(ascii "bar", ascii "baz"), (ascii "baz", ascii "bar")]

theorem handlePassAsFile_barAndBaz :
    ∃ after, handlePassAsFile Sha256.digest (withPassAsFile barAndBazVars barAndBaz, .empty) =
        .ok after ∧
      Moved Sha256.digest barAndBaz (withPassAsFile barAndBazVars barAndBaz, .empty) after :=
  (handlePassAsFile_iff Sha256.digest barAndBazVars .empty barAndBaz (by decide +kernel)
    (by decide +kernel) (by decide +kernel) (by decide +kernel) (by decide +kernel)).mpr
    (by decide +kernel) barAndBaz (List.Perm.refl _)

/-- An empty list is an error. -/
theorem handlePassAsFile_nil_eq_error :
    ¬∀ (environment files : BytesMap) (names : List Bytes), (∀ x ∈ names, utf8Valid x = true) →
      (∀ x ∈ names, 32 ∉ x) → names.Nodup →
      (∀ x ∈ names, ((withPassAsFile environment names).get? x).isSome = true) →
      ∃ after, handlePassAsFile Sha256.digest (withPassAsFile environment names, files) =
        .ok after := by
  intro h
  obtain ⟨after, hafter⟩ := h .empty .empty [] (fun _ hx => absurd hx List.not_mem_nil)
    (fun _ hx => absurd hx List.not_mem_nil) List.nodup_nil
    (fun _ hx => absurd hx List.not_mem_nil)
  rw [handlePassAsFile_nil] at hafter
  obtain ⟨contents, hcontents, -⟩ := passAsFileLoop_cons_eq_ok_iff.mp hafter
  have hnone : (withPassAsFile .empty []).get? [] = none := by decide +kernel
  exact absurd (hnone.symm.trans hcontents) (by simp)

end Snix.BuildGlue
