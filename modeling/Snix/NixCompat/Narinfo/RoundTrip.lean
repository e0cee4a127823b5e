import Snix.Lib.ByteReader
import Snix.NixCompat.Narinfo.Basic

/-!
# Printing NAR infos

A description that was read from a text is printed as a text from which it is read
again, but for what the flags note about the first text. Printed again, it gives the
same text.

## Main definitions

- `Clean` — no line feeds and carriage returns
- `NarInfo.Fields.Good`, `NarInfo.Printable` — what holds of everything that was read

## Main results

- `NarInfo.parse_printable` — what is read is printable
- `NarInfo.parse_display` — what is printable is read back
- `NarInfo.roundTrip` — both for a text
-/

namespace Snix

/-- A part of a line. -/
def Clean (s : Bytes) : Prop := 10 ∉ s ∧ 13 ∉ s

theorem Clean.of_subset {s t : Bytes} (h : Clean s) (hsub : ∀ c ∈ t, c ∈ s) : Clean t :=
  ⟨fun hc => h.1 (hsub 10 hc), fun hc => h.2 (hsub 13 hc)⟩

theorem Clean.append {s t : Bytes} (hs : Clean s) (ht : Clean t) : Clean (s ++ t) :=
  ⟨fun h => (List.mem_append.mp h).elim hs.1 ht.1, fun h => (List.mem_append.mp h).elim hs.2 ht.2⟩

theorem clean_of_isHashChar {s : Bytes} (h : ∀ c ∈ s, isHashChar c = true) : Clean s :=
  ⟨fun hc => absurd (h 10 hc) (by decide), fun hc => absurd (h 13 hc) (by decide)⟩

theorem clean_encode (x : Bytes) : Clean (Nixbase32.encode x) :=
  clean_of_isHashChar fun _ => isHashChar_encode

theorem clean_decimal (n : ℕ) : Clean (decimal n) :=
  ⟨fun hc => absurd (decimal_range hc).1 (by decide),
    fun hc => absurd (decimal_range hc).1 (by decide)⟩

theorem StorePath.clean_display (p : StorePath) : Clean p.display := by
  have hname : Clean p.name :=
    ⟨fun hc => absurd (p.valid.2.2 10 hc) (by decide),
      fun hc => absurd (p.valid.2.2 13 hc) (by decide)⟩
  have hdash : Clean (ascii "-") := by
    constructor <;> decide
  exact ((clean_encode p.digest.val).append hdash).append hname

theorem Signature.clean_display {sig : Signature} (h : Clean sig.name) : Clean sig.display := by
  have hencoded : Clean (base64Encode sig.bytes.val) :=
    ⟨fun hc => absurd (base64Encode_range hc).1 (by decide),
      fun hc => absurd (base64Encode_range hc).1 (by decide)⟩
  have hcolon : Clean [58] := by
    constructor <;> decide
  have hdisplay : sig.display = sig.name ++ ([58] ++ base64Encode sig.bytes.val) := rfl
  rw [hdisplay]
  exact h.append (hcolon.append hencoded)

namespace NarInfo

variable {isAlphanumeric : Bytes → Bool} {f f' : Fields} {n : NarInfo}

-- ====================
-- What is read is printable
-- ====================

/-- A text that is not empty and has no line breaks. -/
def GoodText (s : Bytes) : Prop := s ≠ [] ∧ Clean s

def GoodSignature (isAlphanumeric : Bytes → Bool) (sig : Signature) : Prop :=
  Signature.ValidName isAlphanumeric sig.name ∧ Clean sig.name

/-- What holds of the fields that were read so far. -/
structure Fields.Good (isAlphanumeric : Bytes → Bool) (f : Fields) : Prop where
  url : ∀ s ∈ f.url, GoodText s
  compression : ∀ s ∈ f.compression, GoodText s
  system : ∀ s ∈ f.system, GoodText s
  fileSize : ∀ k ∈ f.fileSize, k < 2 ^ 64
  narSize : ∀ k ∈ f.narSize, k < 2 ^ 64
  signatures : ∀ sig ∈ f.signatures, GoodSignature isAlphanumeric sig
  compressionDefault : f.flags.compressionDefault = false
  referencesMissing : f.flags.referencesMissing = false

/-- What holds of a description that was read. -/
structure Printable (isAlphanumeric : Bytes → Bool) (n : NarInfo) : Prop where
  url : GoodText n.url
  compression : ∀ s ∈ n.compression, GoodText s ∧ s ≠ ascii "none"
  compressionDefault : n.flags.compressionDefault = true → n.compression = some (ascii "bzip2")
  system : ∀ s ∈ n.system, GoodText s
  fileSize : ∀ k ∈ n.fileSize, k < 2 ^ 64
  narSize : n.narSize < 2 ^ 64
  references : n.flags.referencesMissing = true → n.references = []
  signatures : ∀ sig ∈ n.signatures, GoodSignature isAlphanumeric sig

theorem map_eq_ok_iff {ε α β : Type} {x : Except ε α} {g : α → β} {b : β} :
    x.map g = .ok b ↔ ∃ a, x = .ok a ∧ g a = b := by
  cases x with
  | error e =>
    constructor
    · nofun
    · rintro ⟨a, ha, -⟩
      cases ha
  | ok a =>
    constructor
    · intro h
      cases h
      exact ⟨a, rfl, rfl⟩
    · rintro ⟨a', ha, rfl⟩
      cases ha
      rfl

theorem once_eq_ok {α : Type} {tag : Tag} {old x : Option α} {val : α}
    (h : once tag old val = .ok x) : x = some val := by
  unfold once at h
  split_ifs at h
  cases h
  rfl

theorem parseText_eq_ok {tag : Tag} {old x : Option Bytes} {val : Bytes} (hval : Clean val)
    (h : parseText tag old val = .ok x) : ∀ s ∈ x, GoodText s := by
  unfold parseText at h
  split_ifs at h with hnil
  obtain rfl := once_eq_ok h
  rintro s hs
  cases hs
  exact ⟨hnil, hval⟩

theorem parseSize_eq_ok {tag : Tag} {old x : Option ℕ} {val : Bytes}
    (h : parseSize tag old val = .ok x) : ∀ k ∈ x, k < 2 ^ 64 := by
  unfold parseSize at h
  cases hparse : parseU64 val with
  | none =>
    rw [hparse] at h
    cases h
  | some k =>
    rw [hparse] at h
    obtain rfl := once_eq_ok h
    rintro m hm
    cases hm
    exact parseU64_lt hparse

/-- Reading a field keeps what holds of the fields. -/
theorem parseField_good {tag : Tag} {val : Bytes} (h : f.Good isAlphanumeric) (hval : Clean val)
    (hparse : parseField isAlphanumeric f tag val = .ok f') : f'.Good isAlphanumeric := by
  cases tag with
  | storePath =>
    rw [parseField] at hparse
    split at hparse
    case h_1 => cases hparse
    case h_2 =>
      split at hparse
      case h_1 => cases hparse
      case h_2 =>
        obtain ⟨x, -, rfl⟩ := map_eq_ok_iff.mp hparse
        exact { h with }
  | url =>
    obtain ⟨x, hx, rfl⟩ := map_eq_ok_iff.mp hparse
    exact { h with url := parseText_eq_ok hval hx }
  | compression =>
    obtain ⟨x, hx, rfl⟩ := map_eq_ok_iff.mp hparse
    exact { h with compression := parseText_eq_ok hval hx }
  | fileHash =>
    obtain ⟨x, -, rfl⟩ := map_eq_ok_iff.mp hparse
    exact { h with }
  | fileSize =>
    obtain ⟨x, hx, rfl⟩ := map_eq_ok_iff.mp hparse
    exact { h with fileSize := parseSize_eq_ok hx }
  | narHash =>
    rw [parseField] at hparse
    split_ifs at hparse
    · obtain ⟨x, -, rfl⟩ := map_eq_ok_iff.mp hparse
      exact { h with }
    · obtain ⟨x, -, rfl⟩ := map_eq_ok_iff.mp hparse
      exact { h with }
  | narSize =>
    obtain ⟨x, hx, rfl⟩ := map_eq_ok_iff.mp hparse
    exact { h with narSize := parseSize_eq_ok hx }
  | references =>
    rw [parseField] at hparse
    split at hparse
    case h_1 => cases hparse
    case h_2 =>
      obtain ⟨x, -, rfl⟩ := map_eq_ok_iff.mp hparse
      exact { h with }
  | system =>
    obtain ⟨x, hx, rfl⟩ := map_eq_ok_iff.mp hparse
    exact { h with system := parseText_eq_ok hval hx }
  | deriver =>
    rw [parseField] at hparse
    split at hparse
    case h_1 =>
      split at hparse
      case h_1 => cases hparse
      case h_2 =>
        obtain ⟨x, -, rfl⟩ := map_eq_ok_iff.mp hparse
        exact { h with }
    case h_2 =>
      split_ifs at hparse
      cases hparse
      exact { h with }
  | sig =>
    rw [parseField] at hparse
    split at hparse
    case h_1 => cases hparse
    case h_2 sig hsig =>
      cases hparse
      obtain ⟨hname, hsub⟩ := Signature.parse_eq_ok hsig
      refine { h with signatures := fun sig' hmem => ?_ }
      rcases List.mem_append.mp hmem with hmem | hmem
      · exact h.signatures sig' hmem
      · obtain rfl := List.mem_singleton.mp hmem
        exact ⟨hname, hval.of_subset hsub⟩
  | ca =>
    rw [parseField] at hparse
    split at hparse
    case h_1 => cases hparse
    case h_2 =>
      obtain ⟨x, -, rfl⟩ := map_eq_ok_iff.mp hparse
      exact { h with }

theorem parseLine_good {line : Bytes} (h : f.Good isAlphanumeric) (hline : Clean line)
    (hparse : parseLine isAlphanumeric f line = .ok f') : f'.Good isAlphanumeric := by
  unfold parseLine at hparse
  cases hsplit : splitOnce 58 line with
  | none =>
    rw [hsplit] at hparse
    cases hparse
  | some parts =>
    obtain ⟨tag, rest⟩ := parts
    obtain ⟨rfl, -⟩ := splitOnce_eq_some_iff.mp hsplit
    rw [hsplit] at hparse
    dsimp only at hparse
    split at hparse
    case h_1 => cases hparse
    case h_2 val hstrip =>
      obtain rfl := stripPrefix_eq_some_iff.mp hstrip
      have hval : Clean val := hline.of_subset fun c hc => by simp [hc]
      split at hparse
      case h_1 => exact parseField_good h hval hparse
      case h_2 =>
        cases hparse
        exact { h with }

/-- Reading lines keeps what holds of the fields. -/
theorem parseLines_good {ls : List Bytes} (h : f.Good isAlphanumeric) (hls : ∀ l ∈ ls, Clean l)
    (hparse : ls.foldlM (parseLine isAlphanumeric) f = .ok f') : f'.Good isAlphanumeric := by
  induction ls generalizing f with
  | nil =>
    cases hparse
    exact h
  | cons l ls ih =>
    rw [List.foldlM_cons] at hparse
    cases hline : parseLine isAlphanumeric f l with
    | error e =>
      rw [hline] at hparse
      cases hparse
    | ok f₁ =>
      rw [hline] at hparse
      exact ih (parseLine_good h (hls l List.mem_cons_self) hline)
        (fun l' hl' => hls l' (List.mem_cons_of_mem _ hl')) hparse

theorem required_eq_ok_iff {α : Type} {tag : Tag} {o : Option α} {x : α} :
    required tag o = .ok x ↔ o = some x := by
  cases o with
  | none => exact ⟨nofun, nofun⟩
  | some y =>
    constructor
    · intro h
      cases h
      rfl
    · intro h
      cases h
      rfl

theorem empty_good : Fields.empty.Good isAlphanumeric where
  url := nofun
  compression := nofun
  system := nofun
  fileSize := nofun
  narSize := nofun
  signatures := nofun
  compressionDefault := rfl
  referencesMissing := rfl

theorem finish_printable (h : f.Good isAlphanumeric) (hfinish : finish f = .ok n) :
    n.Printable isAlphanumeric := by
  unfold finish at hfinish
  obtain ⟨storePath, hstorePath, hfinish⟩ := except_bind_eq_ok_iff.mp hfinish
  obtain ⟨narHash, hnarHash, hfinish⟩ := except_bind_eq_ok_iff.mp hfinish
  obtain ⟨narSize, hnarSize, hfinish⟩ := except_bind_eq_ok_iff.mp hfinish
  obtain ⟨url, hurl, hfinish⟩ := except_bind_eq_ok_iff.mp hfinish
  cases hfinish
  refine ⟨h.url url (required_eq_ok_iff.mp hurl), fun s hs => ?_, fun hdefault => ?_, h.system,
    h.fileSize, h.narSize narSize (required_eq_ok_iff.mp hnarSize), fun hmissing => ?_,
    h.signatures⟩
  · cases hc : f.compression with
    | none =>
      simp only [hc, compressionMethod, Option.mem_def, Option.some.injEq] at hs
      subst hs
      refine ⟨⟨by decide, ?_⟩, by decide⟩
      constructor <;> decide
    | some c =>
      simp only [hc, compressionMethod, Option.mem_def] at hs
      split_ifs at hs with hnone
      cases hs
      exact ⟨h.compression s hc, hnone⟩
  · simp only [h.compressionDefault, Bool.false_or, Option.isNone_iff_eq_none] at hdefault
    simp only [hdefault, compressionMethod]
  · simp only [h.referencesMissing, Bool.false_or, Option.isNone_iff_eq_none] at hmissing
    simp only [hmissing, Option.getD_none]

/-- What is read from a text without carriage returns is printable. -/
theorem parse_printable {t : Bytes} (hcr : 13 ∉ t) (h : parse isAlphanumeric t = .ok n) :
    n.Printable isAlphanumeric := by
  obtain ⟨f, hf, hfinish⟩ := except_bind_eq_ok_iff.mp h
  refine finish_printable (parseLines_good empty_good (fun line hline => ?_) hf) hfinish
  obtain ⟨hlf, hsub⟩ := mem_lines hline
  exact ⟨hlf, fun hc => hcr (hsub 13 hc)⟩

-- ====================
-- What is printed
-- ====================

theorem clean_displayHash (digest : ByteArr 32) : Clean (displayHash digest) := by
  have hlabel : Clean (ascii "sha256:") := by
    constructor <;> decide
  exact hlabel.append (clean_encode digest.val)

theorem clean_displayReferences (paths : List StorePath) : Clean (displayReferences paths) := by
  have hall : Clean (paths.flatMap fun path => 32 :: path.display) := by
    constructor
    · intro hc
      obtain ⟨path, -, hmem⟩ := List.mem_flatMap.mp hc
      rcases List.mem_cons.mp hmem with h | h
      · exact absurd h (by decide)
      · exact path.clean_display.1 h
    · intro hc
      obtain ⟨path, -, hmem⟩ := List.mem_flatMap.mp hc
      rcases List.mem_cons.mp hmem with h | h
      · exact absurd h (by decide)
      · exact path.clean_display.2 h
  exact hall.of_subset fun c hc => List.mem_of_mem_drop hc

/-- The values that are printed have no line breaks. -/
theorem clean_printed (h : n.Printable isAlphanumeric) :
    ∀ entry ∈ n.printed, Clean entry.2 := by
  have hdir : Clean STORE_DIR_WITH_SLASH := by
    constructor <;> decide
  have hdrv : Clean (ascii ".drv") := by
    constructor <;> decide
  have hnone : Clean (ascii "none") := by
    constructor <;> decide
  have hunknown : Clean (ascii "unknown-deriver") := by
    constructor <;> decide
  intro entry hentry
  simp only [printed, List.mem_append, or_assoc] at hentry
  rcases hentry with h₁ | h₂ | h₃ | h₄ | h₅ | h₆ | h₇ | h₈ | h₉ | h₁₀
  · simp only [List.mem_cons, List.not_mem_nil, or_false] at h₁
    rcases h₁ with rfl | rfl
    · exact hdir.append n.storePath.clean_display
    · exact h.url.2
  · split_ifs at h₂ with hdefault
    · cases h₂
    · obtain rfl := List.mem_singleton.mp h₂
      cases hc : n.compression with
      | none => exact hnone
      | some c => exact (h.compression c hc).1.2
  · obtain ⟨digest, -, rfl⟩ := List.mem_map.mp h₃
    exact clean_displayHash digest
  · obtain ⟨size, -, rfl⟩ := List.mem_map.mp h₄
    exact clean_decimal size
  · simp only [List.mem_cons, List.not_mem_nil, or_false] at h₅
    rcases h₅ with rfl | rfl
    · exact clean_displayHash n.narHash
    · exact clean_decimal n.narSize
  · split_ifs at h₆ with hmissing
    · cases h₆
    · obtain rfl := List.mem_singleton.mp h₆
      exact clean_displayReferences n.references
  · split at h₇
    · obtain rfl := List.mem_singleton.mp h₇
      exact (StorePath.clean_display _).append hdrv
    · split_ifs at h₇ with hflag
      · obtain rfl := List.mem_singleton.mp h₇
        exact hunknown
      · cases h₇
  · obtain ⟨system, hmem, rfl⟩ := List.mem_map.mp h₈
    exact (h.system system (Option.mem_toList.mp hmem)).2
  · obtain ⟨sig, hmem, rfl⟩ := List.mem_map.mp h₉
    exact Signature.clean_display (h.signatures sig hmem).2
  · obtain ⟨ca, -, rfl⟩ := List.mem_map.mp h₁₀
    exact clean_of_isHashChar fun c => CAHash.isHashChar_of_mem_display

theorem clean_line {tag : Tag} {val : Bytes} (h : Clean val) : Clean (line tag val) := by
  have htag : ∀ t : Tag, Clean (t.asStr ++ [58, 32]) := by
    intro t
    cases t <;> constructor <;> decide
  have hline : line tag val = tag.asStr ++ [58, 32] ++ val := by
    rw [line, List.append_assoc]
    rfl
  rw [hline]
  exact (htag tag).append h

theorem lines_display (h : n.Printable isAlphanumeric) :
    lines n.display = n.printed.map fun entry => line entry.1 entry.2 := by
  refine lines_unlines fun l hl => ?_
  obtain ⟨entry, hentry, rfl⟩ := List.mem_map.mp hl
  exact clean_line (clean_printed h entry hentry)

/-- A line with a known tag is read as that field. -/
theorem parseLine_line (tag : Tag) (val : Bytes) :
    parseLine isAlphanumeric f (line tag val) = parseField isAlphanumeric f tag val := by
  have hcolon : ∀ t : Tag, (58 : UInt8) ∉ t.asStr := by
    intro t
    cases t <;> decide
  have hsplit : splitOnce 58 (line tag val) = some (tag.asStr, 32 :: val) :=
    splitOnce_eq_some_iff.mpr ⟨rfl, hcolon tag⟩
  have hstrip : stripPrefix [32] (32 :: val) = some val := stripPrefix_eq_some_iff.mpr rfl
  rw [parseLine, hsplit]
  dsimp only
  rw [hstrip]
  dsimp only
  rw [Tag.ofStr_asStr]

/-- Reads one field after the other. -/
def parseFields (isAlphanumeric : Bytes → Bool) (f : Fields) (entries : List (Tag × Bytes)) :
    Except Error Fields :=
  entries.foldlM (fun f entry => parseField isAlphanumeric f entry.1 entry.2) f

theorem parse_display_eq (h : n.Printable isAlphanumeric) :
    parse isAlphanumeric n.display = parseFields isAlphanumeric .empty n.printed >>= finish := by
  have hfold : ∀ (entries : List (Tag × Bytes)) (f : Fields),
      (entries.map fun entry => line entry.1 entry.2).foldlM (parseLine isAlphanumeric) f =
        parseFields isAlphanumeric f entries := by
    intro entries
    induction entries with
    | nil => exact fun f => rfl
    | cons entry entries ih =>
      intro f
      rw [List.map_cons, List.foldlM_cons, parseLine_line, parseFields, List.foldlM_cons]
      exact congrArg _ (funext ih)
  rw [parse, lines_display h, hfold]

-- ====================
-- Reading what was printed
-- ====================

theorem parseFields_append {l m : List (Tag × Bytes)} {f₁ f₂ : Fields}
    (hl : parseFields isAlphanumeric f l = .ok f₁)
    (hm : parseFields isAlphanumeric f₁ m = .ok f₂) :
    parseFields isAlphanumeric f (l ++ m) = .ok f₂ := by
  rw [parseFields, List.foldlM_append, ← parseFields, hl]
  exact hm

theorem parseFields_one {tag : Tag} {val : Bytes} :
    parseFields isAlphanumeric f [(tag, val)] = parseField isAlphanumeric f tag val := by
  rw [parseFields, List.foldlM_cons]
  cases parseField isAlphanumeric f tag val <;> rfl

/-- An optional field is read as it is. -/
theorem parseFields_optional {α : Type} {tag : Tag} {print : α → Bytes} {g : Option α → Fields}
    (o : Option α) (hnone : g none = f)
    (hsome : ∀ x, o = some x → parseField isAlphanumeric f tag (print x) = .ok (g (some x))) :
    parseFields isAlphanumeric f (o.toList.map fun x => (tag, print x)) = .ok (g o) := by
  cases o with
  | none =>
    rw [hnone]
    rfl
  | some x =>
    rw [Option.toList_some, List.map_singleton, parseFields_one]
    exact hsome x rfl

theorem once_none {α : Type} (tag : Tag) (val : α) : once tag none val = .ok (some val) := rfl

theorem parseText_good {tag : Tag} {val : Bytes} (h : GoodText val) :
    parseText tag none val = .ok (some val) := by
  rw [parseText, if_neg h.1, once_none]

theorem parseSize_decimal {tag : Tag} {k : ℕ} (h : k < 2 ^ 64) :
    parseSize tag none (decimal k) = .ok (some k) := by
  rw [parseSize, parseU64_decimal h]
  rfl

theorem parseHash_display {tag : Tag} (digest : ByteArr 32) :
    parseHash tag none (Nixbase32.decodeFixed 32) (displayHash digest) = .ok (some digest) := by
  rw [parseHash, displayHash, stripPrefix_append]
  dsimp only
  rw [Nixbase32.decodeFixed_encode]
  rfl

theorem isHex_display (digest : ByteArr 32) : isHex (displayHash digest) = false := by
  have hlen : (Nixbase32.encode digest.val).length = 52 := by
    rw [Nixbase32.length_encode, digest.property]
    rfl
  rw [isHex, displayHash, List.drop_left, hlen]
  rfl

theorem StorePath.display_ne_nil (p : StorePath) : p.display ≠ [] ∧ 32 ∉ p.display := by
  have hdigest : ∀ c ∈ Nixbase32.encode p.digest.val, c ≠ 32 := by
    rintro c hc rfl
    exact absurd (isHashChar_encode hc) (by decide)
  constructor
  · intro h
    have hlen := congrArg List.length h
    simp [StorePath.display, ascii] at hlen
  · intro h
    rw [StorePath.display, List.mem_append, List.mem_append] at h
    rcases h with (h | h) | h
    · exact hdigest 32 h rfl
    · exact absurd h (by decide)
    · exact absurd (p.valid.2.2 32 h) (by decide)

theorem displayReferences_cons (path : StorePath) (paths : List StorePath) :
    displayReferences (path :: paths) =
      [32].intercalate ((path :: paths).map StorePath.display) := by
  rw [displayReferences, List.flatMap_cons, List.cons_append, List.drop_one, List.tail_cons,
    List.map_cons]
  induction paths generalizing path with
  | nil => simp
  | cons q paths ih =>
    rw [List.map_cons, List.intercalate_cons_cons, ← ih q, List.flatMap_cons]
    simp

theorem parseReferences_display (i : ℕ) (prev : Bytes) (paths : List StorePath) :
    ∃ outOfOrder, parseReferences i prev (paths.map StorePath.display) = .ok (paths, outOfOrder) := by
  induction paths generalizing i prev with
  | nil => exact ⟨false, rfl⟩
  | cons path paths ih =>
    obtain ⟨outOfOrder, hrest⟩ := ih (i + 1) path.display
    refine ⟨!decide (prev < path.display) || outOfOrder, ?_⟩
    rw [List.map_cons, parseReferences, StorePath.fromBytes_display]
    dsimp only
    rw [hrest]

variable (isAlphanumeric) in
/-- Store paths that were printed in a line are read back. -/
theorem parseField_references (hf : f.references = none) (paths : List StorePath) :
    ∃ outOfOrder, parseField isAlphanumeric f .references (displayReferences paths) =
      .ok { f with
        flags := { f.flags with referencesOutOfOrder := outOfOrder }
        references := some paths } := by
  cases paths with
  | nil =>
    refine ⟨f.flags.referencesOutOfOrder || false, ?_⟩
    have hnil : displayReferences [] = [] := rfl
    rw [parseField, hnil, if_pos rfl, hf]
    rfl
  | cons path paths =>
    obtain ⟨outOfOrder, hparse⟩ := parseReferences_display 0 [] (path :: paths)
    have hne : displayReferences (path :: paths) ≠ [] := by
      rw [displayReferences, List.flatMap_cons, List.cons_append, List.drop_one, List.tail_cons]
      exact fun h => (StorePath.display_ne_nil path).1 (List.append_eq_nil_iff.mp h).1
    have hsplit : (displayReferences (path :: paths)).splitOn 32 =
        (path :: paths).map StorePath.display := by
      rw [displayReferences_cons]
      refine List.splitOn_intercalate 32 (fun l hl => ?_) (by simp)
      obtain ⟨p, -, rfl⟩ := List.mem_map.mp hl
      exact (StorePath.display_ne_nil p).2
    refine ⟨f.flags.referencesOutOfOrder || outOfOrder, ?_⟩
    rw [parseField, if_neg hne, hsplit, hparse]
    dsimp only
    rw [hf]
    rfl

/-- The fields of a description after its lines were read. -/
def fields (n : NarInfo) (outOfOrder : Bool) : Fields where
  flags := { Flags.empty with
    referencesOutOfOrder := outOfOrder
    explicitUnknownDeriver := n.deriver.isNone && n.flags.explicitUnknownDeriver }
  storePath := some n.storePath
  url := some n.url
  compression :=
    if n.flags.compressionDefault then none else some (n.compression.getD (ascii "none"))
  fileHash := n.fileHash
  fileSize := n.fileSize
  narHash := some n.narHash
  narSize := some n.narSize
  references := if n.flags.referencesMissing then none else some n.references
  system := n.system
  deriver := n.deriver
  signatures := n.signatures
  ca := n.ca

theorem parseFields_signatures (hcolon : isAlphanumeric [58] = false) {sigs : List Signature}
    (h : ∀ sig ∈ sigs, GoodSignature isAlphanumeric sig) :
    parseFields isAlphanumeric f (sigs.map fun sig => (.sig, sig.display)) =
      .ok { f with signatures := f.signatures ++ sigs } := by
  induction sigs generalizing f with
  | nil =>
    rw [List.append_nil]
    rfl
  | cons sig sigs ih =>
    have hone : parseFields isAlphanumeric f [(.sig, sig.display)] =
        .ok { f with signatures := f.signatures ++ [sig] } := by
      rw [parseFields_one, parseField, Signature.parse_display hcolon (h sig List.mem_cons_self).1]
    have hrest := ih (f := { f with signatures := f.signatures ++ [sig] })
      fun s hs => h s (List.mem_cons_of_mem _ hs)
    have hall := parseFields_append hone hrest
    rwa [List.append_assoc] at hall

variable (isAlphanumeric) in
theorem parseFields_deriver (hf : f.deriver = none) (hflag : f.flags.explicitUnknownDeriver = false) :
    parseFields isAlphanumeric f
      (match n.deriver with
        | some path => [(.deriver, path.display ++ ascii ".drv")]
        | none =>
          if n.flags.explicitUnknownDeriver then [(.deriver, ascii "unknown-deriver")] else []) =
      .ok { f with
        flags := { f.flags with
          explicitUnknownDeriver := n.deriver.isNone && n.flags.explicitUnknownDeriver }
        deriver := n.deriver } := by
  obtain ⟨⟨_, _, _, _, _, _⟩, _, _, _, _, _, _, _, _, _, _, _, _⟩ := f
  cases hf
  cases hflag
  cases n.deriver with
  | some path =>
    dsimp only
    rw [parseFields_one, parseField, stripSuffix_append]
    dsimp only
    rw [StorePath.fromBytes_display]
    rfl
  | none =>
    cases n.flags.explicitUnknownDeriver with
    | true =>
      have hstrip : stripSuffix (ascii ".drv") (ascii "unknown-deriver") = none := by
        decide +kernel
      dsimp only
      rw [if_pos rfl, parseFields_one, parseField, hstrip]
      dsimp only
      rw [if_pos rfl]
      rfl
    | false => rfl

/-- A field that is not always printed. -/
theorem parseFields_unless {α : Type} {omitted : Bool} {tag : Tag} {val : Bytes} {x : α}
    {g : Option α → Fields} (hnone : g none = f)
    (hsome : omitted = false → parseField isAlphanumeric f tag val = .ok (g (some x))) :
    parseFields isAlphanumeric f (if omitted then [] else [(tag, val)]) =
      .ok (g (if omitted then none else some x)) := by
  cases omitted with
  | true =>
    rw [if_pos rfl, if_pos rfl, hnone]
    rfl
  | false =>
    rw [if_neg Bool.false_ne_true, if_neg Bool.false_ne_true, parseFields_one]
    exact hsome rfl

theorem goodText_compression (h : n.Printable isAlphanumeric) :
    GoodText (n.compression.getD (ascii "none")) := by
  cases hc : n.compression with
  | none =>
    refine ⟨by decide, ?_⟩
    constructor <;> decide
  | some c => exact (h.compression c hc).1

/-- The lines that are printed are read as the fields of the description. -/
theorem parseFields_printed (hcolon : isAlphanumeric [58] = false)
    (h : n.Printable isAlphanumeric) :
    ∃ outOfOrder, parseFields isAlphanumeric .empty n.printed = .ok (n.fields outOfOrder) := by
  let f₁ : Fields := { Fields.empty with storePath := some n.storePath, url := some n.url }
  let f₂ : Fields := { f₁ with
    compression :=
      if n.flags.compressionDefault then none else some (n.compression.getD (ascii "none")) }
  let f₃ : Fields := { f₂ with fileHash := n.fileHash }
  let f₄ : Fields := { f₃ with fileSize := n.fileSize }
  let f₅ : Fields := { f₄ with narHash := some n.narHash, narSize := some n.narSize }
  have hpath : parseField isAlphanumeric .empty .storePath
      (STORE_DIR_WITH_SLASH ++ n.storePath.display) =
        .ok { Fields.empty with storePath := some n.storePath } := by
    rw [parseField, stripPrefix_append]
    dsimp only
    rw [StorePath.fromBytes_display]
    rfl
  have hurl : parseField isAlphanumeric { Fields.empty with storePath := some n.storePath } .url
      n.url = .ok f₁ := by
    show (parseText .url none n.url).map _ = _
    rw [parseText_good h.url]
    rfl
  have h₁ : parseFields isAlphanumeric .empty [(.storePath, STORE_DIR_WITH_SLASH ++
      n.storePath.display), (.url, n.url)] = .ok f₁ :=
    parseFields_append (l := [_]) (m := [_]) (parseFields_one.trans hpath)
      (parseFields_one.trans hurl)
  have h₂ : parseFields isAlphanumeric f₁
      (if n.flags.compressionDefault then []
        else [(.compression, n.compression.getD (ascii "none"))]) = .ok f₂ := by
    refine parseFields_unless (g := fun x => { f₁ with compression := x }) rfl fun _ => ?_
    show (parseText .compression none _).map _ = _
    rw [parseText_good (goodText_compression h)]
    rfl
  have h₃ : parseFields isAlphanumeric f₂
      (n.fileHash.toList.map fun digest => (.fileHash, displayHash digest)) = .ok f₃ := by
    refine parseFields_optional (g := fun x => { f₂ with fileHash := x }) n.fileHash rfl
      fun digest _ => ?_
    show (parseHash .fileHash none _ _).map _ = _
    rw [parseHash_display]
    rfl
  have h₄ : parseFields isAlphanumeric f₃
      (n.fileSize.toList.map fun size => (.fileSize, decimal size)) = .ok f₄ := by
    refine parseFields_optional (g := fun x => { f₃ with fileSize := x }) n.fileSize rfl
      fun size hsize => ?_
    show (parseSize .fileSize none _).map _ = _
    rw [parseSize_decimal (h.fileSize size hsize)]
    rfl
  have hhash : parseField isAlphanumeric f₄ .narHash (displayHash n.narHash) =
      .ok { f₄ with narHash := some n.narHash } := by
    rw [parseField, isHex_display, if_neg Bool.false_ne_true]
    show (parseHash .narHash none _ _).map _ = _
    rw [parseHash_display]
    rfl
  have hsize : parseField isAlphanumeric { f₄ with narHash := some n.narHash } .narSize
      (decimal n.narSize) = .ok f₅ := by
    show (parseSize .narSize none _).map _ = _
    rw [parseSize_decimal h.narSize]
    rfl
  have h₅ : parseFields isAlphanumeric f₄
      [(.narHash, displayHash n.narHash), (.narSize, decimal n.narSize)] = .ok f₅ :=
    parseFields_append (l := [_]) (m := [_]) (parseFields_one.trans hhash)
      (parseFields_one.trans hsize)
  obtain ⟨outOfOrder, hreferences⟩ : ∃ outOfOrder, parseFields isAlphanumeric f₅
      (if n.flags.referencesMissing then [] else [(.references, displayReferences n.references)]) =
        .ok { f₅ with
          flags := { f₅.flags with referencesOutOfOrder := outOfOrder }
          references := if n.flags.referencesMissing then none else some n.references } := by
    obtain ⟨outOfOrder, hparse⟩ := parseField_references isAlphanumeric (f := f₅) rfl
      n.references
    cases n.flags.referencesMissing with
    | true => exact ⟨false, rfl⟩
    | false => exact ⟨outOfOrder, parseFields_one.trans hparse⟩
  let f₆ : Fields := { f₅ with
    flags := { f₅.flags with referencesOutOfOrder := outOfOrder }
    references := if n.flags.referencesMissing then none else some n.references }
  let f₇ : Fields := { f₆ with
    flags := { f₆.flags with
      explicitUnknownDeriver := n.deriver.isNone && n.flags.explicitUnknownDeriver }
    deriver := n.deriver }
  have h₇ := parseFields_deriver isAlphanumeric (f := f₆) (n := n) rfl rfl
  have h₈ : parseFields isAlphanumeric f₇ (n.system.toList.map fun system => (.system, system)) =
      .ok { f₇ with system := n.system } := by
    refine parseFields_optional (g := fun x => { f₇ with system := x }) n.system rfl
      fun system hsystem => ?_
    show (parseText .system none _).map _ = _
    rw [parseText_good (h.system system hsystem)]
    rfl
  have h₉ := parseFields_signatures (f := { f₇ with system := n.system }) hcolon h.signatures
  have h₁₀ : parseFields isAlphanumeric
      { f₇ with system := n.system, signatures := n.signatures }
      (n.ca.toList.map fun ca => (.ca, ca.display)) = .ok (n.fields outOfOrder) := by
    refine parseFields_optional
      (g := fun x => { f₇ with system := n.system, signatures := n.signatures, ca := x }) n.ca rfl
      fun ca _ => ?_
    rw [parseField, CAHash.fromNixHexStr_display]
    rfl
  refine ⟨outOfOrder, ?_⟩
  rw [printed]
  exact parseFields_append (parseFields_append (parseFields_append (parseFields_append
    (parseFields_append (parseFields_append (parseFields_append (parseFields_append
      (parseFields_append h₁ h₂) h₃) h₄) h₅) hreferences) h₇) h₈) h₉) h₁₀

/-- The description that is read from the printed one: it has other flags. -/
def reread (n : NarInfo) (outOfOrder : Bool) : NarInfo :=
  { n with
    flags := { Flags.empty with
      compressionDefault := n.flags.compressionDefault
      referencesOutOfOrder := outOfOrder
      explicitUnknownDeriver := n.deriver.isNone && n.flags.explicitUnknownDeriver
      referencesMissing := n.flags.referencesMissing } }

theorem finish_fields (h : n.Printable isAlphanumeric) (outOfOrder : Bool) :
    finish (n.fields outOfOrder) = .ok (n.reread outOfOrder) := by
  have hreferences : (n.fields outOfOrder).references.getD [] = n.references := by
    show (if n.flags.referencesMissing then none else some n.references).getD [] = _
    cases hm : n.flags.referencesMissing with
    | true => exact (h.references hm).symm
    | false => rfl
  have hcompression : compressionMethod (n.fields outOfOrder).compression = n.compression := by
    show compressionMethod (if n.flags.compressionDefault then none
      else some (n.compression.getD (ascii "none"))) = n.compression
    cases hd : n.flags.compressionDefault with
    | true => exact (h.compressionDefault hd).symm
    | false =>
      cases hc : n.compression with
      | none =>
        show (if ascii "none" = ascii "none" then none else some (ascii "none")) = none
        exact if_pos rfl
      | some c =>
        show (if c = ascii "none" then none else some c) = some c
        exact if_neg (h.compression c hc).2
  have hmissing : (n.fields outOfOrder).references.isNone = n.flags.referencesMissing := by
    show (if n.flags.referencesMissing then none else some n.references).isNone = _
    cases n.flags.referencesMissing <;> rfl
  have hdefault : (n.fields outOfOrder).compression.isNone = n.flags.compressionDefault := by
    show (if n.flags.compressionDefault then none
      else some (n.compression.getD (ascii "none"))).isNone = _
    cases n.flags.compressionDefault <;> rfl
  show Except.ok (NarInfo.mk _ _ _ _ _ _ _ _ _ _ _ _ _) = _
  rw [hreferences, hcompression, hmissing, hdefault]
  rfl

theorem display_reread (n : NarInfo) (outOfOrder : Bool) :
    (n.reread outOfOrder).display = n.display := by
  have hprinted : (n.reread outOfOrder).printed = n.printed := by
    unfold printed reread
    dsimp only
    cases n.deriver <;> rfl
  rw [display, display, hprinted]

/-- A printable description is read back, and printed again as the same text. -/
theorem parse_display (hcolon : isAlphanumeric [58] = false) (h : n.Printable isAlphanumeric) :
    ∃ n', parse isAlphanumeric n.display = .ok n' ∧ { n' with flags := n.flags } = n ∧
      n'.display = n.display := by
  obtain ⟨outOfOrder, hfields⟩ := parseFields_printed hcolon h
  refine ⟨n.reread outOfOrder, ?_, rfl, display_reread n outOfOrder⟩
  rw [parse_display_eq h, hfields]
  exact finish_fields h outOfOrder

/-- A description that was read is printed as a text from which it is read again, but for
    its flags, and which is printed again. -/
theorem roundTrip (hcolon : isAlphanumeric [58] = false) {t : Bytes} (hcr : 13 ∉ t)
    (h : parse isAlphanumeric t = .ok n) :
    ∃ n', parse isAlphanumeric n.display = .ok n' ∧ { n' with flags := n.flags } = n ∧
      n'.display = n.display :=
  parse_display hcolon (parse_printable hcr h)

/-- The ASCII letters and digits. -/
def asciiAlphanumeric (c : Bytes) : Bool :=
  match c with
  | [b] => (97 ≤ b && b ≤ 122) || (65 ≤ b && b ≤ 90) || (48 ≤ b && b ≤ 57)
  | _ => false

/-- The size has a sign, the order is unusual, and there is a field that is not known. -/
def sample : Bytes := unlines
  [ascii "URL: nar/1", ascii "Deriver: unknown-deriver", ascii "NarSize: +07",
    ascii "StorePath: /nix/store/00000000000000000000000000000000-a", ascii "Other: 1",
    ascii "NarHash: sha256:0000000000000000000000000000000000000000000000000000000000000000",
    ascii "References: 00000000000000000000000000000000-b 00000000000000000000000000000000-a"]

theorem roundTrip_sample : ∃ n, parse asciiAlphanumeric sample = .ok n ∧
    ∃ n', parse asciiAlphanumeric n.display = .ok n' ∧ { n' with flags := n.flags } = n ∧
      n'.display = n.display := by
  have hok : (parse asciiAlphanumeric sample).isOk = true := by decide +kernel
  cases hn : parse asciiAlphanumeric sample with
  | error e =>
    rw [hn] at hok
    cases hok
  | ok n => exact ⟨n, rfl, roundTrip (by decide) (by decide +kernel) hn⟩

end NarInfo

end Snix
