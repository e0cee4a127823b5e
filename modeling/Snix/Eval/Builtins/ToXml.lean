import Snix.Eval.Builtins.Versions
import Snix.Eval.Value.Attrs
import Snix.Eval.Value.Compare
import Snix.Lib.Markup

/-!
# Values as XML

Deeply forced values are written as elements. A derivation is written with its attributes where it
is met first, and as repeated after that.

## Main definitions

- `XmlEmitter` — what was written, with the context of the strings and the derivations that were seen
- `escapeAttrValue` — how an attribute value is written
- `valueVariantToXml`, `valueToXml` — how values are written

## Main results

- `escapeAttrValue_eq` — attribute values are escaped byte by byte
-/

namespace Snix.Eval

/-- The parameters of a function that takes an attribute set. -/
structure Formals where
  arguments : List (NixString × Bool)
  ellipsis : Bool
  name : Option Bytes

/-- What is written of a function: the parameters, or the name of its only one. -/
structure LambdaShape where
  formals : Option Formals
  paramName : Bytes

/-- What forced thunks and functions are. The value of a forced thunk is no thunk. -/
structure ForcedHeap where
  value : ℕ → Value
  lambda : ℕ → LambdaShape
  displayFloat : Float → Bytes
  value_ne_thunk : ∀ t t', value t ≠ .thunk t'

/-- What was written, and what was met. -/
structure XmlEmitter where
  curIndent : ℕ
  writer : Bytes
  context : NixContext
  /-- The paths of derivations. -/
  drvsSeen : List Bytes

-- ====================
-- Attribute values
-- ====================

/-- The entity that is written for a character. -/
def shouldEscapeChar (c : Bytes) : Option Bytes :=
  match c with
  | [b] =>
    if b = 60 then some [38, 108, 116, 59]
    else if b = 62 then some [38, 103, 116, 59]
    else if b = 34 then some [38, 113, 117, 111, 116, 59]
    else if b = 39 then some [38, 97, 112, 111, 115, 59]
    else if b = 38 then some [38, 97, 109, 112, 59]
    else if b = 10 then some [38, 35, 120, 65, 59]
    else if b = 13 then some [38, 35, 120, 68, 59]
    else none
  | _ => none

/-- A range of a string. -/
def strSlice (s : Bytes) (start stop : ℕ) : Except Fault Bytes :=
  if start ≤ stop ∧ stop ≤ s.length then .ok ((s.drop start).take (stop - start))
  else .error .panic

/-- The loop over the characters: where the last one that was escaped ends, and the result. -/
def escapeLoop (s : Bytes) : List CharIndex → ℕ → Bytes → Except Fault (ℕ × Bytes)
  | [], lastEscape, res => .ok (lastEscape, res)
  | c :: chars, lastEscape, res =>
    match shouldEscapeChar c.char with
    | none => escapeLoop s chars lastEscape res
    | some new =>
      match strSlice s lastEscape c.start with
      | .error e => .error e
      | .ok unescaped => escapeLoop s chars (c.start + 1) (res ++ unescaped ++ new)

def escapeAttrValue (s : Bytes) : Except Fault Bytes :=
  match escapeLoop s (charIndices s) 0 [] with
  | .error e => .error e
  | .ok (lastEscape, res) =>
    if lastEscape = 0 then .ok s
    else
      match strSlice s lastEscape s.length with
      | .error e => .error e
      | .ok rest => .ok (res ++ rest)

-- ====================
-- The emitter
-- ====================

namespace XmlEmitter

def write (w : XmlEmitter) (text : Bytes) : XmlEmitter := { w with writer := w.writer ++ text }

def addIndent (w : XmlEmitter) : XmlEmitter := w.write (List.replicate w.curIndent 32)

/-- The attributes, one after the other. -/
def writeAttrsEscapeVals (w : XmlEmitter) : List (Bytes × Bytes) → Except Fault XmlEmitter
  | [] => .ok w
  | (name, val) :: attrs =>
    match escapeAttrValue val with
    | .error e => .error e
    | .ok escaped =>
      writeAttrsEscapeVals (w.write ([32] ++ name ++ [61, 34] ++ escaped ++ [34])) attrs

def writeOpenTag (w : XmlEmitter) (nameUnescaped : Bytes) (attrs : List (Bytes × Bytes)) :
    Except Fault XmlEmitter :=
  match (w.addIndent.write ([60] ++ nameUnescaped)).writeAttrsEscapeVals attrs with
  | .error e => .error e
  | .ok w => .ok { w.write [62, 10] with curIndent := w.curIndent + 2 }

def writeSelfClosingTag (w : XmlEmitter) (nameUnescaped : Bytes) (attrs : List (Bytes × Bytes)) :
    Except Fault XmlEmitter :=
  match (w.addIndent.write ([60] ++ nameUnescaped)).writeAttrsEscapeVals attrs with
  | .error e => .error e
  | .ok w => .ok (w.write [32, 47, 62, 10])

def writeClosingTag (w : XmlEmitter) (nameUnescaped : Bytes) : Except Fault XmlEmitter :=
  if w.curIndent < 2 then .error .panic
  else
    let w := { w with curIndent := w.curIndent - 2 }
    .ok (w.addIndent.write ([60, 47] ++ nameUnescaped ++ [62, 10]))

def extendContext (w : XmlEmitter) (elements : List NixContextElement) : XmlEmitter :=
  { w with context := w.context.extend elements }

end XmlEmitter

namespace Xml

open Markup

-- the names of elements and attributes
def ATTR : TagName := ⟨[97, 116, 116, 114], by decide⟩
def ATTRS : TagName := ⟨[97, 116, 116, 114, 115], by decide⟩
def ATTRSPAT : TagName := ⟨[97, 116, 116, 114, 115, 112, 97, 116], by decide⟩
def BOOL : TagName := ⟨[98, 111, 111, 108], by decide⟩
def DERIVATION : TagName := ⟨[100, 101, 114, 105, 118, 97, 116, 105, 111, 110], by decide⟩
def DRV_PATH : TagName := ⟨[100, 114, 118, 80, 97, 116, 104], by decide⟩
def ELLIPSIS : TagName := ⟨[101, 108, 108, 105, 112, 115, 105, 115], by decide⟩
def FLOAT : TagName := ⟨[102, 108, 111, 97, 116], by decide⟩
def FUNCTION : TagName := ⟨[102, 117, 110, 99, 116, 105, 111, 110], by decide⟩
def INT : TagName := ⟨[105, 110, 116], by decide⟩
def LIST : TagName := ⟨[108, 105, 115, 116], by decide⟩
def NAME : TagName := ⟨[110, 97, 109, 101], by decide⟩
def NULL : TagName := ⟨[110, 117, 108, 108], by decide⟩
def OUT_PATH : TagName := ⟨[111, 117, 116, 80, 97, 116, 104], by decide⟩
def PATH : TagName := ⟨[112, 97, 116, 104], by decide⟩
def REPEATED : TagName := ⟨[114, 101, 112, 101, 97, 116, 101, 100], by decide⟩
def STRING : TagName := ⟨[115, 116, 114, 105, 110, 103], by decide⟩
def UNEVALUATED : TagName := ⟨[117, 110, 101, 118, 97, 108, 117, 97, 116, 101, 100], by decide⟩
def VALUE : TagName := ⟨[118, 97, 108, 117, 101], by decide⟩
def VARPAT : TagName := ⟨[118, 97, 114, 112, 97, 116], by decide⟩

end Xml

-- ====================
-- Values
-- ====================

/-- The attribute `type` is the string `derivation`, not behind a thunk. -/
def AttrsRep.isDerivation (a : AttrsRep Value) : Bool :=
  match a.select TYPE.contents with
  | some (.string kind) => decide (kind.contents = Xml.DERIVATION.val)
  | _ => false

def ForcedHeap.toContextfulStr (heap : ForcedHeap) : Value → Option NixString
  | .string s => some s
  | .thunk t => (heap.value t).toContextfulStr.toOption
  | _ => none

abbrev Emitted := Option (Except Fault XmlEmitter)

/-- What is written next, unless there was an error. -/
def Emitted.andThen (r : Emitted) (next : XmlEmitter → Emitted) : Emitted :=
  match r with
  | some (.ok w) => next w
  | some (.error e) => some (.error e)
  | none => none

def writeTypedValue (w : XmlEmitter) (nameUnescaped : Bytes) (value : Bytes) : Emitted :=
  some (w.writeSelfClosingTag nameUnescaped [(Xml.VALUE.val, value)])

/-- The loop over the attributes of a set. -/
def writeAttrsNaked (into : XmlEmitter → Value → Emitted) (w : XmlEmitter) :
    List (NixString × Value) → Emitted
  | [] => some (.ok w)
  | (k, v) :: attrs =>
    Emitted.andThen
      (some (w.writeOpenTag Xml.ATTR.val [(Xml.NAME.val, toStringLossy k.contents)])) fun w =>
    Emitted.andThen (into w v) fun w =>
    Emitted.andThen (some (w.writeClosingTag Xml.ATTR.val)) fun w =>
    writeAttrsNaked into w attrs

/-- The paths that are written in the tag of a derivation. -/
def derivationPaths (heap : ForcedHeap) (attrs : AttrsRep Value) (drvPath : NixString) :
    List (Bytes × Bytes) :=
  match (attrs.select Xml.OUT_PATH.val).bind heap.toContextfulStr with
  | some outPath =>
    [(Xml.DRV_PATH.val, toStringLossy drvPath.contents),
      (Xml.OUT_PATH.val, toStringLossy outPath.contents)]
  | none => [(Xml.DRV_PATH.val, toStringLossy drvPath.contents)]

def writeDerivation (heap : ForcedHeap) (into : XmlEmitter → Value → Emitted) (w : XmlEmitter)
    (attrs : AttrsRep Value) : Emitted :=
  match (attrs.select Xml.DRV_PATH.val).bind heap.toContextfulStr with
  | some drvPath =>
    Emitted.andThen
      (some (w.writeOpenTag Xml.DERIVATION.val (derivationPaths heap attrs drvPath))) fun w =>
    Emitted.andThen
      (if drvPath.contents ≠ [] ∧ drvPath.contents ∉ w.drvsSeen then
        writeAttrsNaked into { w with drvsSeen := w.drvsSeen ++ [drvPath.contents] } attrs.iterSorted
      else some (w.writeSelfClosingTag Xml.REPEATED.val [])) fun w =>
    some (w.writeClosingTag Xml.DERIVATION.val)
  | none => some (w.writeSelfClosingTag Xml.REPEATED.val [])

/-- The loop over the elements of a list. -/
def writeElems (into : XmlEmitter → Value → Emitted) (w : XmlEmitter) : List Value → Emitted
  | [] => some (.ok w)
  | elem :: list => Emitted.andThen (into w elem) fun w => writeElems into w list

/-- The loop over the parameters of a function. -/
def writeArguments (w : XmlEmitter) : List (NixString × Bool) → Emitted
  | [] => some (.ok w)
  | arg :: arguments =>
    Emitted.andThen
      (some (w.writeSelfClosingTag Xml.ATTR.val [(Xml.NAME.val, toStringLossy arg.1.contents)]))
      fun w => writeArguments w arguments

/-- What is written in the tag of the parameters. -/
def formalsAttrs (formals : Formals) : List (Bytes × Bytes) :=
  let attrs := if formals.ellipsis then [(Xml.ELLIPSIS.val, [49])] else []
  match formals.name with
  | some name => attrs ++ [(Xml.NAME.val, name)]
  | none => attrs

def writePattern (w : XmlEmitter) (lambda : LambdaShape) : Emitted :=
  match lambda.formals with
  | some formals =>
    Emitted.andThen (some (w.writeOpenTag Xml.ATTRSPAT.val (formalsAttrs formals))) fun w =>
    Emitted.andThen (writeArguments w formals.arguments) fun w =>
    some (w.writeClosingTag Xml.ATTRSPAT.val)
  | none => some (w.writeSelfClosingTag Xml.VARPAT.val [(Xml.NAME.val, lambda.paramName)])

def writeFunction (w : XmlEmitter) (lambda : LambdaShape) : Emitted :=
  Emitted.andThen (some (w.writeOpenTag Xml.FUNCTION.val [])) fun w =>
  Emitted.andThen (writePattern w lambda) fun w =>
  some (w.writeClosingTag Xml.FUNCTION.val)

/-- An element with nothing in it. -/
def writeNothing (w : XmlEmitter) (nameUnescaped : Bytes) : Emitted :=
  Emitted.andThen (some (w.writeOpenTag nameUnescaped [])) fun w =>
  some (w.writeClosingTag nameUnescaped)

def internalVariant : Fault :=
  .error (.snixBug "internal value variant encountered in builtins.toXML")

/-- What is written of a value. None if values are nested deeper than the given number. -/
def valueVariantToXml (heap : ForcedHeap) : ℕ → XmlEmitter → Value → Emitted
  | 0, _, _ => none
  | n + 1, w, value =>
    match value with
    | .thunk t => valueVariantToXml heap n w (heap.value t)
    | .null => writeNothing w Xml.NULL.val
    | .bool b =>
      writeTypedValue w Xml.BOOL.val
        (if b then [116, 114, 117, 101] else [102, 97, 108, 115, 101])
    | .integer i => writeTypedValue w Xml.INT.val (Value.formatInteger i)
    | .float f => writeTypedValue w Xml.FLOAT.val (heap.displayFloat f)
    | .string s =>
      match s.asStr with
      | .error e => some (.error (.error e))
      | .ok text => writeTypedValue (w.extendContext s.context) Xml.STRING.val text.val
    | .path p => writeTypedValue w Xml.PATH.val (toStringLossy p)
    | .list list =>
      Emitted.andThen (some (w.writeOpenTag Xml.LIST.val [])) fun w =>
      Emitted.andThen (writeElems (valueVariantToXml heap n) w list) fun w =>
      some (w.writeClosingTag Xml.LIST.val)
    | .attrs attrs =>
      if attrs.isDerivation then writeDerivation heap (valueVariantToXml heap n) w attrs
      else
        Emitted.andThen (some (w.writeOpenTag Xml.ATTRS.val [])) fun w =>
        Emitted.andThen (writeAttrsNaked (valueVariantToXml heap n) w attrs.iterSorted) fun w =>
        some (w.writeClosingTag Xml.ATTRS.val)
    | .closure c => writeFunction w (heap.lambda c)
    | .builtin _ => writeNothing w Xml.UNEVALUATED.val
    | .attrNotFound | .blueprint _ | .deferredUpvalue _ | .unresolvedPath _ | .finaliseRequest _ =>
      some (.error internalVariant)
    | .catchable _ => some (.error .panic)

variable {s b res : Bytes} {c : CharIndex} {n pos lastEscape : ℕ}

theorem escapeByte_eq (x : UInt8) : Markup.escapeByte x = (shouldEscapeChar [x]).getD [x] := by
  simp only [shouldEscapeChar]
  split_ifs with h₁ h₂ h₃ h₄ h₅ h₆ h₇
  · rw [h₁]; rfl
  · rw [h₂]; rfl
  · rw [h₃]; rfl
  · rw [h₄]; rfl
  · rw [h₅]; rfl
  · rw [h₆]; rfl
  · rw [h₇]; rfl
  · obtain ⟨entity, hmem, -⟩ | ⟨-, heq⟩ := Markup.escapeByte_cases x
    · simp [Markup.entities, h₁, h₂, h₃, h₄, h₅, h₆, h₇] at hmem
    · exact heq

/-- A byte that is no ASCII is not escaped. -/
theorem shouldEscapeChar_high (h : ∀ y ∈ b, 0x80 ≤ y) : shouldEscapeChar b = none := by
  unfold shouldEscapeChar
  split
  · next x =>
    have hx := h x List.mem_cons_self
    have hne : ∀ y : UInt8, ¬0x80 ≤ y → x ≠ y := fun y hy heq => hy (heq ▸ hx)
    rw [if_neg (hne 60 (by decide)), if_neg (hne 62 (by decide)), if_neg (hne 34 (by decide)),
      if_neg (hne 39 (by decide)), if_neg (hne 38 (by decide)), if_neg (hne 10 (by decide)),
      if_neg (hne 13 (by decide))]
  · rfl

theorem escape_high (h : ∀ y ∈ b, 0x80 ≤ y) : Markup.escape b = b := by
  induction b with
  | nil => rfl
  | cons x b ih =>
    have hx : shouldEscapeChar [x] = none :=
      shouldEscapeChar_high fun y hy => List.mem_singleton.mp hy ▸ h x List.mem_cons_self
    have hrest := ih fun y hy => h y (List.mem_cons_of_mem _ hy)
    rw [Markup.escape, List.flatMap_cons, escapeByte_eq, hx]
    exact congrArg (List.cons x) hrest

theorem escape_append (a b : Bytes) : Markup.escape (a ++ b) = Markup.escape a ++ Markup.escape b :=
  List.flatMap_append

theorem strSlice_eq {start stop : ℕ} (h : start ≤ stop) (hstop : stop ≤ s.length) :
    strSlice s start stop = .ok ((s.drop start).take (stop - start)) :=
  if_pos ⟨h, hstop⟩

/-- What is not escaped goes on. -/
theorem take_drop_add {k : ℕ} (hlast : lastEscape ≤ pos) (hdrop : s.drop pos = b) :
    (s.drop lastEscape).take (pos + k - lastEscape) =
      (s.drop lastEscape).take (pos - lastEscape) ++ b.take k := by
  have hlen : pos + k - lastEscape = (pos - lastEscape) + k := by omega
  have hpos : lastEscape + (pos - lastEscape) = pos := by omega
  rw [hlen, List.take_add, List.drop_drop, hpos, hdrop]

/-- The loop ends with a result that lacks what comes after the last character that was escaped. -/
def LoopEscapes (s : Bytes) (chars : List CharIndex) (lastEscape : ℕ) (res out : Bytes) : Prop :=
  ∃ last' res', escapeLoop s chars lastEscape res = .ok (last', res') ∧ lastEscape ≤ last' ∧
    last' ≤ s.length ∧ (last' = 0 → res' = res) ∧ res' ++ s.drop last' = out

theorem LoopEscapes.skip {chars : List CharIndex} {out : Bytes}
    (hnone : shouldEscapeChar c.char = none) (h : LoopEscapes s chars lastEscape res out) :
    LoopEscapes s (c :: chars) lastEscape res out := by
  obtain ⟨last', res', hrun, h⟩ := h
  refine ⟨last', res', ?_, h⟩
  rw [escapeLoop, hnone]
  exact hrun

theorem LoopEscapes.escape {chars : List CharIndex} {new out : Bytes}
    (hnew : shouldEscapeChar c.char = some new) (hlast : lastEscape ≤ c.start)
    (hstart : c.start ≤ s.length)
    (h : LoopEscapes s chars (c.start + 1)
      (res ++ (s.drop lastEscape).take (c.start - lastEscape) ++ new) out) :
    LoopEscapes s (c :: chars) lastEscape res out := by
  obtain ⟨last', res', hrun, hle, hlen, -, hout⟩ := h
  refine ⟨last', res', ?_, by omega, hlen, by omega, hout⟩
  rw [escapeLoop, hnew]
  simp only [strSlice_eq hlast hstart]
  exact hrun

theorem loopEscapes_nil (hlast : lastEscape ≤ pos) (hpos : pos ≤ s.length)
    (hdrop : s.drop pos = []) :
    LoopEscapes s [] lastEscape res (res ++ (s.drop lastEscape).take (pos - lastEscape)) := by
  refine ⟨lastEscape, res, rfl, Nat.le_refl _, hlast.trans hpos, fun _ => rfl, ?_⟩
  have hend : (s.drop lastEscape).length ≤ pos - lastEscape := by
    have hle := List.drop_eq_nil_iff.mp hdrop
    rw [List.length_drop]
    omega
  rw [List.take_of_length_le hend]

/-- The loop escapes what is left. By induction on the number of characters. -/
theorem loopEscapes (res : Bytes) (hdrop : s.drop pos = b) (hlen : b.length ≤ n)
    (hlast : lastEscape ≤ pos) (hpos : pos ≤ s.length) :
    LoopEscapes s (charIndicesFrom n pos b) lastEscape res
      (res ++ (s.drop lastEscape).take (pos - lastEscape) ++ Markup.escape b) := by
  induction n generalizing pos b lastEscape res with
  | zero =>
    obtain rfl := List.length_eq_zero_iff.mp (Nat.le_zero.mp hlen)
    rw [Markup.escape, List.flatMap_nil, List.append_nil]
    exact loopEscapes_nil hlast hpos hdrop
  | succ n ih =>
    by_cases hb : b = []
    · subst hb
      rw [Markup.escape, List.flatMap_nil, List.append_nil, charIndicesFrom_nil]
      exact loopEscapes_nil hlast hpos hdrop
    · obtain ⟨c, hchars, hstart, hstop, hchar⟩ := charIndicesFrom_cons n pos hb
      obtain ⟨hk, hkb⟩ := utf8Front_length hb
      have hdrop' : s.drop c.stop = b.drop (utf8Front b).2 := by
        rw [hstop, ← List.drop_drop, hdrop]
      have hlen' : (b.drop (utf8Front b).2).length ≤ n := by
        rw [List.length_drop]
        omega
      have hpos' : c.stop ≤ s.length := by
        have hrest := congrArg List.length hdrop
        rw [List.length_drop] at hrest
        omega
      have hsplit : Markup.escape b = Markup.escape (b.take (utf8Front b).2) ++
          Markup.escape (b.drop (utf8Front b).2) := by
        rw [← escape_append, List.take_append_drop]
      rw [hchars, hsplit, ← List.append_assoc]
      -- a character that is not escaped is left for later
      have hgo : shouldEscapeChar c.char = none →
          Markup.escape (b.take (utf8Front b).2) = b.take (utf8Front b).2 →
          LoopEscapes s (c :: charIndicesFrom n c.stop (b.drop (utf8Front b).2)) lastEscape res
            (res ++ (s.drop lastEscape).take (pos - lastEscape) ++
              Markup.escape (b.take (utf8Front b).2) ++
              Markup.escape (b.drop (utf8Front b).2)) := by
        intro hnone hsame
        have hrest := ih res hdrop' hlen' (hlast.trans (by omega)) hpos'
        rw [hstop, take_drop_add hlast hdrop, ← List.append_assoc] at hrest
        rw [hsame]
        exact (hstop ▸ hrest).skip hnone
      obtain hone | hhigh := utf8Front_high b
      · rw [hone] at hchar hstop hgo hdrop' hlen' ⊢
        obtain ⟨x, b', rfl⟩ := List.exists_cons_of_ne_nil hb
        have htake : (x :: b').take 1 = [x] := rfl
        have hescape : Markup.escape [x] = Markup.escapeByte x := List.append_nil _
        simp only [htake, if_true] at hchar hgo ⊢
        cases hx : shouldEscapeChar [x] with
        | none =>
          refine hgo (hchar ▸ hx) ?_
          rw [hescape, escapeByte_eq, hx]
          rfl
        | some new =>
          have hrest := ih (res ++ (s.drop lastEscape).take (pos - lastEscape) ++ new) hdrop' hlen'
            (Nat.le_refl _) hpos'
          rw [Nat.sub_self, List.take_zero, List.append_nil] at hrest
          rw [hescape, escapeByte_eq, hx]
          refine .escape (hchar ▸ hx) (hstart ▸ hlast) (hstart ▸ hpos) ?_
          rw [hstart, ← hstop]
          exact hrest
      · refine hgo (shouldEscapeChar_high ?_) (escape_high hhigh)
        rw [hchar]
        split_ifs
        · exact hhigh
        · decide +kernel

/-- An attribute value is escaped byte by byte. -/
theorem escapeAttrValue_eq (s : Bytes) : escapeAttrValue s = .ok (Markup.escape s) := by
  have hloop : LoopEscapes s (charIndicesFrom s.length 0 s) 0 []
      ([] ++ (s.drop 0).take (0 - 0) ++ Markup.escape s) :=
    loopEscapes [] rfl (Nat.le_refl _) (Nat.le_refl _) (Nat.zero_le _)
  rw [Nat.sub_zero, List.take_zero, List.nil_append, List.nil_append] at hloop
  obtain ⟨last', res', hrun, -, hlen, hzero, hout⟩ := hloop
  rw [escapeAttrValue, charIndices, hrun]
  by_cases hlast : last' = 0
  · subst hlast
    rw [hzero rfl, List.nil_append, List.drop_zero] at hout
    simp only [if_true]
    rw [← hout]
  · simp only [if_neg hlast, strSlice_eq hlen (Nat.le_refl _)]
    rw [← hout, List.take_of_length_le (by rw [List.length_drop])]

end Snix.Eval
