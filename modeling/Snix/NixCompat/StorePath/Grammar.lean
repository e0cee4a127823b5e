import Snix.Lib.Path
import Snix.NixCompat.StorePath

/-!
# The grammar of store paths

Which byte strings are store paths, and how an absolute path is cut into a store path and what is
inside of it. The latter is done by components, so slashes and dots may be repeated.

## Main definitions

- `StorePath.fromAbsolutePathFull` — a store path and the rest of a path

## Main results

- `exists_fromBytes_iff` — the byte strings that are accepted
- `exists_fromAbsolutePathFull_iff` — the paths that are accepted
- `grammar` — all of this, and that nothing is lost
-/

namespace Snix.StorePath

open Snix.Path

/-- Decomposes a path into a store path and the rest of the path. -/
def fromAbsolutePathFull (path : Bytes) : Except ParseStorePathError (StorePath × Bytes) :=
  match Path.stripPrefix STORE_DIR_WITH_SLASH path with
  | none => .error .missingStoreDir
  | some p =>
    match next (p.splitOn 47) with
    | none => .error .length
    | some (firstComponent, components) =>
      if firstComponent.asPath.length < 34 then .error .length
      else do
        let storePath ← fromBytes firstComponent.asPath
        .ok (storePath, asPath components)

/-- What is accepted: the encoding of a digest, a dash and a name. -/
theorem exists_fromBytes_iff {s : Bytes} :
    (∃ p, fromBytes s = .ok p) ↔ ∃ (digest : ByteArr DIGEST_SIZE) (name : Bytes),
      ValidName name ∧ s = Nixbase32.encode digest.val ++ ascii "-" ++ name := by
  constructor
  · rintro ⟨p, hp⟩
    exact ⟨p.digest, p.name, p.valid, (display_of_fromBytes hp).symm⟩
  · rintro ⟨digest, name, hname, rfl⟩
    exact ⟨⟨digest, name, hname⟩, fromBytes_display ⟨digest, name, hname⟩⟩

theorem length_display (p : StorePath) : 34 ≤ p.display.length := by
  have hname : 0 < p.name.length := List.length_pos_of_ne_nil p.valid.1
  have hlen : (Nixbase32.encode p.digest.val).length = 32 := by
    rw [Nixbase32.length_encode, p.digest.property]
    rfl
  rw [display, List.length_append, List.length_append, hlen, show (ascii "-").length = 1 from rfl]
  omega

/-- A printed store path is a component of its own. -/
theorem plain_display (p : StorePath) : Plain p.display := by
  have hlen := length_display p
  have hshort : ∀ piece : Bytes, piece.length < 34 → p.display ≠ piece := by
    rintro piece hpiece rfl
    omega
  refine ⟨hshort _ (by decide), hshort _ (by decide), hshort _ (by decide), fun hslash => ?_⟩
  have halphabet : 47 ∉ Nixbase32.ALPHABET := by decide
  rw [display, List.mem_append, List.mem_append] at hslash
  obtain (hslash | hslash) | hslash := hslash
  · exact halphabet (Nixbase32.mem_ALPHABET_of_mem_encode hslash)
  · exact absurd hslash (by decide)
  · exact absurd (p.valid.2.2 47 hslash) (by decide +kernel)

/-- The components of a store path with its directory. -/
theorem components_toAbsolutePath (p : StorePath) :
    components p.toAbsolutePath = components STORE_DIR_WITH_SLASH ++ [.normal p.display] := by
  have hdir : components STORE_DIR = components STORE_DIR_WITH_SLASH := by decide +kernel
  have hpath : p.toAbsolutePath = STORE_DIR ++ 47 :: p.display := rfl
  rw [hpath, components_append (by decide) (plain_display p), hdir]

theorem eq_normal_of_fromBytes {pieces rest : List Bytes} {c : Component} {p : StorePath}
    (hnext : next pieces = some (c, rest)) (hp : fromBytes c.asPath = .ok p) :
    c = .normal p.display := by
  have hdisplay := display_of_fromBytes hp
  have hlong := length_display p
  cases c with
  | normal name => exact congrArg Component.normal hdisplay.symm
  | rootDir =>
    rw [hdisplay] at hlong
    exact absurd hlong (by decide)
  | curDir =>
    rw [hdisplay] at hlong
    exact absurd hlong (by decide)
  | parentDir =>
    rw [hdisplay] at hlong
    exact absurd hlong (by decide)

/-- What is found in an accepted path. -/
theorem fromAbsolutePathFull_eq_ok {path rest : Bytes} {p : StorePath}
    (h : fromAbsolutePathFull path = .ok (p, rest)) :
    components path = components STORE_DIR_WITH_SLASH ++ .normal p.display ::
        normalized (rest.splitOn 47) ∧ isAbsolute rest = false := by
  rw [fromAbsolutePathFull] at h
  split at h
  · cases h
  · next after hafter =>
    split at h
    · cases h
    · next first pieces hnext =>
      split at h
      · cases h
      · cases hp : fromBytes first.asPath with
        | error e =>
          rw [hp] at h
          cases h
        | ok q =>
          rw [hp] at h
          cases h
          have hslash : ∀ piece ∈ pieces, 47 ∉ piece := fun piece hpiece =>
            not_mem_of_mem_splitOn (mem_of_mem_next hnext piece hpiece)
          refine ⟨?_, isAbsolute_asPath hslash⟩
          rw [(stripPrefix_eq_some hafter).1, normalized_of_next hnext,
            eq_normal_of_fromBytes hnext hp, normalized_splitOn_asPath hslash]

/-- The paths that are accepted: those in a store path. -/
theorem exists_fromAbsolutePathFull_iff {path : Bytes} :
    (∃ p rest, fromAbsolutePathFull path = .ok (p, rest)) ↔
      ∃ p : StorePath, components p.toAbsolutePath <+: components path := by
  constructor
  · rintro ⟨p, rest, h⟩
    refine ⟨p, ?_⟩
    rw [components_toAbsolutePath, (fromAbsolutePathFull_eq_ok h).1]
    exact List.prefix_append_right_inj _ |>.mpr ⟨_, rfl⟩
  · rintro ⟨p, cs, hcs⟩
    rw [components_toAbsolutePath, List.append_assoc] at hcs
    obtain ⟨after, hafter, hrest⟩ := exists_stripPrefix (by decide) hcs.symm
    obtain ⟨pieces, hnext, -⟩ := exists_next hrest
    refine ⟨p, asPath pieces, ?_⟩
    have hlong : ¬(Component.normal p.display).asPath.length < 34 := Nat.not_lt.mpr (length_display p)
    have hp : fromBytes (Component.normal p.display).asPath = .ok p := fromBytes_display p
    rw [fromAbsolutePathFull, hafter]
    simp only [hnext, if_neg hlong, hp]
    rfl

/-- Joining the store path and the rest gives a path with the components that were there. -/
theorem components_push_fromAbsolutePathFull {path rest : Bytes} {p : StorePath}
    (h : fromAbsolutePathFull path = .ok (p, rest)) :
    components (push p.toAbsolutePath rest) = components path := by
  obtain ⟨hpath, hrest⟩ := fromAbsolutePathFull_eq_ok h
  have hne : p.toAbsolutePath ≠ [] := List.cons_ne_nil _ _
  have hlast : p.toAbsolutePath.getLast? ≠ some 47 := by
    intro hslash
    have hname : p.toAbsolutePath.getLast? = p.name.getLast? := by
      rw [toAbsolutePath, display, ← List.append_assoc]
      exact List.getLast?_append_of_ne_nil _ p.valid.1
    rw [hname] at hslash
    exact absurd (p.valid.2.2 47 (List.mem_of_getLast? hslash)) (by decide +kernel)
  rw [components_push hne hlast hrest, components_toAbsolutePath, hpath, List.append_assoc]
  rfl

/-- A byte string is accepted if and only if it is the encoding of a digest, a dash and a valid name,
    and then it is the printed form of what is read. Both printed forms are read back. An absolute
    path is cut in two exactly if it is in a store path, so that joining the parts gives back a path
    with the same components. -/
theorem grammar :
    (∀ s : Bytes, (∃ p, fromBytes s = .ok p) ↔ ∃ (digest : ByteArr DIGEST_SIZE) (name : Bytes),
        ValidName name ∧ s = Nixbase32.encode digest.val ++ ascii "-" ++ name) ∧
      (∀ s p, fromBytes s = .ok p → p.display = s) ∧
      (∀ p : StorePath, fromBytes p.display = .ok p ∧ fromAbsolutePath p.toAbsolutePath = .ok p) ∧
      (∀ path, (∃ p rest, fromAbsolutePathFull path = .ok (p, rest)) ↔
        ∃ p : StorePath, components p.toAbsolutePath <+: components path) ∧
      ∀ path p rest, fromAbsolutePathFull path = .ok (p, rest) →
        components (push p.toAbsolutePath rest) = components path :=
  ⟨fun _ => exists_fromBytes_iff, fun _ _ => display_of_fromBytes,
    fun p => ⟨fromBytes_display p, fromAbsolutePath_toAbsolutePath p⟩,
    fun _ => exists_fromAbsolutePathFull_iff, fun _ _ _ => components_push_fromAbsolutePathFull⟩

/-- A path inside of a store path, with slashes and dots that are skipped. -/
theorem fromAbsolutePathFull_twin :
    components (push (twin 97 validName_a).toAbsolutePath (ascii "bin")) =
      components (ascii "/nix//store/./" ++ (twin 97 validName_a).display ++ ascii "/./bin/") := by
  refine grammar.2.2.2.2 _ _ _ ?_
  decide +kernel

end Snix.StorePath
