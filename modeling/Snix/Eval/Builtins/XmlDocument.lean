import Snix.Eval.Builtins.ToXml

/-!
# XML documents

What is written of a value is a document whose tags are nested, with attribute values that are read
back. A derivation is written with its attributes at most once.

## Main definitions

- `Note` — what an element is written for
- `Printable` — the values that are written
- `Depicts` — the element that stands for a value

## Main results

- `Printable.writes` — every such value is written as an element that stands for it
- `valueToXml_wellFormed` — the document
-/

namespace Snix.Eval

open Markup

/-- What an element is written for: a string, the first derivation with this path, or neither. -/
inductive Note where
  | markup
  | text (s : NixString)
  | expansion (drvPath : Bytes)
  deriving DecidableEq

def Note.drvPath : Note → Option Bytes
  | .expansion drvPath => some drvPath
  | _ => none

def Note.context : Note → NixContext
  | .text s => s.context
  | _ => []

/-- The paths of the derivations that are written with their attributes. -/
def expansions (ts : List (Elem Note)) : List Bytes := (notesAll ts).filterMap Note.drvPath

def extendNotes (context : NixContext) (notes : List Note) : NixContext :=
  notes.foldl (fun context note => context.extend note.context) context

namespace XmlEmitter

/-- The emitter after these elements. -/
def after (w : XmlEmitter) (ts : List (Elem Note)) : XmlEmitter :=
  ⟨w.curIndent, w.writer ++ renderAll w.curIndent ts, extendNotes w.context (notesAll ts),
    w.drvsSeen ++ expansions ts⟩

/-- The emitter after an opening tag. -/
def opened (w : XmlEmitter) (note : Note) (name : TagName) (attrs : List (TagName × Bytes)) :
    XmlEmitter :=
  ⟨w.curIndent + 2, w.writer ++ (spaces w.curIndent ++ 60 :: tagText name attrs ++ [62, 10]),
    w.context.extend note.context, w.drvsSeen ++ note.drvPath.toList⟩

end XmlEmitter

/-- The attributes of a tag, as they are passed to the emitter. -/
def raw (attrs : List (TagName × Bytes)) : List (Bytes × Bytes) :=
  attrs.map fun a => (a.1.val, a.2)

variable {heap : ForcedHeap} {w : XmlEmitter} {name : TagName} {attrs : List (TagName × Bytes)}
  {ts us : List (Elem Note)} {t : Elem Note} {note : Note} {v : Value} {n : ℕ}

theorem renderAll_append (indent : ℕ) (ts us : List (Elem Note)) :
    renderAll indent (ts ++ us) = renderAll indent ts ++ renderAll indent us := by
  induction ts with
  | nil => rfl
  | cons t ts ih => rw [List.cons_append, renderAll, renderAll, ih, List.append_assoc]

theorem notesAll_append (ts us : List (Elem Note)) :
    notesAll (ts ++ us) = notesAll ts ++ notesAll us := by
  induction ts with
  | nil => rfl
  | cons t ts ih => rw [List.cons_append, notesAll, notesAll, ih, List.append_assoc]

namespace XmlEmitter

theorem after_nil (w : XmlEmitter) : w.after [] = w := by
  simp [after, renderAll, notesAll, extendNotes, expansions]

theorem after_after : (w.after ts).after us = w.after (ts ++ us) := by
  simp [after, renderAll_append, notesAll_append, extendNotes, expansions]

theorem drvsSeen_opened : (w.opened .markup name attrs).drvsSeen = w.drvsSeen := List.append_nil _

theorem drvsSeen_after (hnotes : expansions ts = []) : (w.after ts).drvsSeen = w.drvsSeen := by
  rw [after, hnotes, List.append_nil]

theorem writeAttrsEscapeVals_eq (w : XmlEmitter) (attrs : List (TagName × Bytes)) :
    w.writeAttrsEscapeVals (raw attrs) = .ok (w.write (attrs.flatMap attrText)) := by
  induction attrs generalizing w with
  | nil => simp [raw, writeAttrsEscapeVals, write]
  | cons a attrs ih =>
    have hcons : raw (a :: attrs) = (a.1.val, a.2) :: raw attrs := rfl
    rw [hcons, writeAttrsEscapeVals, escapeAttrValue_eq]
    simp only [ih, write, attrText, List.flatMap_cons]
    simp

theorem writeOpenTag_eq (w : XmlEmitter) (name : TagName) (attrs : List (TagName × Bytes)) :
    w.writeOpenTag name.val (raw attrs) = .ok (w.opened .markup name attrs) := by
  rw [writeOpenTag, writeAttrsEscapeVals_eq]
  simp [opened, write, addIndent, spaces, tagText, Note.context, Note.drvPath, NixContext.extend]

theorem writeSelfClosingTag_eq (w : XmlEmitter) (name : TagName)
    (attrs : List (TagName × Bytes)) :
    w.writeSelfClosingTag name.val (raw attrs) = .ok (w.after [.leaf .markup name attrs]) := by
  rw [writeSelfClosingTag, writeAttrsEscapeVals_eq]
  simp [after, renderAll, Elem.render, write, addIndent, spaces, tagText, notesAll, Elem.notes,
    extendNotes, expansions, Note.context, Note.drvPath, NixContext.extend]

/-- A closing tag completes an element. -/
theorem writeClosingTag_eq :
    ((w.opened note name attrs).after ts).writeClosingTag name.val =
      .ok (w.after [.element note name attrs ts]) := by
  have hindent : ¬(w.opened note name attrs).curIndent < 2 := by simp [opened]
  rw [writeClosingTag, after, if_neg hindent]
  cases note <;>
    simp [after, opened, renderAll, Elem.render, write, addIndent, spaces, notesAll, Elem.notes,
      extendNotes, expansions, Note.drvPath, List.filterMap_cons]

end XmlEmitter

-- ====================
-- What is depicted
-- ====================

/-- A value whose strings are UTF-8, of nothing but what the language shows. It is finite, and all
    thunks in it were forced. -/
inductive Printable (heap : ForcedHeap) : Value → Prop
  | thunk {t : ℕ} (h : Printable heap (heap.value t)) : Printable heap (.thunk t)
  | null : Printable heap .null
  | bool (b : Bool) : Printable heap (.bool b)
  | integer (i : Int) : Printable heap (.integer i)
  | float (f : Float) : Printable heap (.float f)
  | string {s : NixString} (hutf8 : utf8Valid s.contents = true) : Printable heap (.string s)
  | path (p : Bytes) : Printable heap (.path p)
  | list {l : List Value} (h : ∀ v ∈ l, Printable heap v) : Printable heap (.list l)
  | attrs {a : AttrsRep Value} (h : ∀ e ∈ a.iterSorted, Printable heap e.2) :
    Printable heap (.attrs a)
  | closure (c : ℕ) : Printable heap (.closure c)
  | builtin (b : ℕ) : Printable heap (.builtin b)

/-- A value without parts, as a string. -/
def typed (note : Note) (name : TagName) (text : Bytes) : Elem Note :=
  .leaf note name [(Xml.VALUE, text)]

/-- The elements of the attributes of a set. -/
def attrElems (es : List (NixString × Value)) (ts : List (Elem Note)) : List (Elem Note) :=
  List.zipWith
    (fun e t => .element .markup Xml.ATTR [(Xml.NAME, toStringLossy e.1.contents)] [t]) es ts

def AttrsRep.drvPath (heap : ForcedHeap) (a : AttrsRep Value) : Option NixString :=
  (a.select Xml.DRV_PATH.val).bind heap.toContextfulStr

/-- The paths that are shown of a derivation. -/
def shownPaths (heap : ForcedHeap) (a : AttrsRep Value) (drvPath : NixString) :
    List (TagName × Bytes) :=
  match (a.select Xml.OUT_PATH.val).bind heap.toContextfulStr with
  | some outPath =>
    [(Xml.DRV_PATH, toStringLossy drvPath.contents), (Xml.OUT_PATH, toStringLossy outPath.contents)]
  | none => [(Xml.DRV_PATH, toStringLossy drvPath.contents)]

def argElem (arg : NixString × Bool) : Elem Note :=
  .leaf .markup Xml.ATTR [(Xml.NAME, toStringLossy arg.1.contents)]

def shownFormals (formals : Formals) : List (TagName × Bytes) :=
  let ellipsis := if formals.ellipsis then [(Xml.ELLIPSIS, [49])] else []
  match formals.name with
  | some name => ellipsis ++ [(Xml.NAME, name)]
  | none => ellipsis

def patternElem (lambda : LambdaShape) : Elem Note :=
  match lambda.formals with
  | some formals =>
    .element .markup Xml.ATTRSPAT (shownFormals formals) (formals.arguments.map argElem)
  | none => .leaf .markup Xml.VARPAT [(Xml.NAME, lambda.paramName)]

def functionElem (lambda : LambdaShape) : Elem Note :=
  .element .markup Xml.FUNCTION [] [patternElem lambda]

/-- The element stands for the value. -/
inductive Depicts (heap : ForcedHeap) : Value → Elem Note → Prop
  | thunk {a : ℕ} {t : Elem Note} (h : Depicts heap (heap.value a) t) : Depicts heap (.thunk a) t
  | null : Depicts heap .null (.element .markup Xml.NULL [] [])
  | bool (b : Bool) :
    Depicts heap (.bool b)
      (typed .markup Xml.BOOL (if b then [116, 114, 117, 101] else [102, 97, 108, 115, 101]))
  | integer (i : Int) :
    Depicts heap (.integer i) (typed .markup Xml.INT (Value.formatInteger i))
  | float (f : Float) : Depicts heap (.float f) (typed .markup Xml.FLOAT (heap.displayFloat f))
  | string (s : NixString) : Depicts heap (.string s) (typed (.text s) Xml.STRING s.contents)
  | path (p : Bytes) : Depicts heap (.path p) (typed .markup Xml.PATH (toStringLossy p))
  | list {l : List Value} {ts : List (Elem Note)} (h : List.Forall₂ (Depicts heap) l ts) :
    Depicts heap (.list l) (.element .markup Xml.LIST [] ts)
  | attrs {a : AttrsRep Value} {ts : List (Elem Note)} (hd : a.isDerivation = false)
    (h : List.Forall₂ (fun e t => Depicts heap e.2 t) a.iterSorted ts) :
    Depicts heap (.attrs a) (.element .markup Xml.ATTRS [] (attrElems a.iterSorted ts))
  | expanded {a : AttrsRep Value} {ts : List (Elem Note)} {drvPath : NixString}
    (hd : a.isDerivation = true) (hpath : a.drvPath heap = some drvPath)
    (h : List.Forall₂ (fun e t => Depicts heap e.2 t) a.iterSorted ts) :
    Depicts heap (.attrs a)
      (.element (.expansion drvPath.contents) Xml.DERIVATION (shownPaths heap a drvPath)
        (attrElems a.iterSorted ts))
  | repeated {a : AttrsRep Value} {drvPath : NixString} (hd : a.isDerivation = true)
    (hpath : a.drvPath heap = some drvPath) :
    Depicts heap (.attrs a)
      (.element .markup Xml.DERIVATION (shownPaths heap a drvPath) [.leaf .markup Xml.REPEATED []])
  | pathless {a : AttrsRep Value} (hd : a.isDerivation = true) (hpath : a.drvPath heap = none) :
    Depicts heap (.attrs a) (.leaf .markup Xml.REPEATED [])
  | closure (c : ℕ) : Depicts heap (.closure c) (functionElem (heap.lambda c))
  | builtin (b : ℕ) : Depicts heap (.builtin b) (.element .markup Xml.UNEVALUATED [] [])

/-- Whatever was written before, the value is written as an element that stands for it, and no
    derivation is written with its attributes again. -/
def Writes (heap : ForcedHeap) (v : Value) : Prop :=
  ∀ w : XmlEmitter, w.drvsSeen.Nodup →
    ∃ t n₀, Depicts heap v t ∧ (w.after [t]).drvsSeen.Nodup ∧
      ∀ n, n₀ ≤ n → valueVariantToXml heap n w v = some (.ok (w.after [t]))

-- ====================
-- Elements are written
-- ====================

theorem drvsSeen_element :
    (w.after [.element note name attrs ts]).drvsSeen =
      ((w.opened note name attrs).after ts).drvsSeen := by
  cases note <;>
    simp [XmlEmitter.after, XmlEmitter.opened, expansions, notesAll, Elem.notes, Note.drvPath,
      List.filterMap_cons]

/-- What is between two tags becomes an element. -/
theorem andThen_element (body : XmlEmitter → Emitted) (name : TagName)
    (attrs : List (TagName × Bytes))
    (h : body (w.opened .markup name attrs) = some (.ok ((w.opened .markup name attrs).after ts))) :
    Emitted.andThen (some (w.writeOpenTag name.val (raw attrs)))
        (fun w => Emitted.andThen (body w) fun w => some (w.writeClosingTag name.val)) =
      some (.ok (w.after [.element .markup name attrs ts])) := by
  rw [XmlEmitter.writeOpenTag_eq, Emitted.andThen, h, Emitted.andThen, XmlEmitter.writeClosingTag_eq]

theorem writeNothing_eq (w : XmlEmitter) (name : TagName) :
    writeNothing w name.val = some (.ok (w.after [.element .markup name [] []])) := by
  have hbody : some (Except.ok (w.opened .markup name [])) =
      (some (.ok ((w.opened .markup name []).after [])) : Emitted) := by
    rw [XmlEmitter.after_nil]
  exact andThen_element (fun w => some (.ok w)) name [] hbody

theorem writeTypedValue_eq (w : XmlEmitter) (name : TagName) (text : Bytes) :
    writeTypedValue w name.val text = some (.ok (w.after [typed .markup name text])) :=
  congrArg some (w.writeSelfClosingTag_eq name [(Xml.VALUE, text)])

theorem after_text (s : NixString) :
    (w.extendContext s.context).after [typed .markup name s.contents] =
      w.after [typed (.text s) name s.contents] := rfl

/-- The elements of a list are written one after the other. -/
theorem exists_writeElems {l : List Value} (h : ∀ v ∈ l, Writes heap v) (w : XmlEmitter)
    (hw : w.drvsSeen.Nodup) :
    ∃ ts n₀, List.Forall₂ (Depicts heap) l ts ∧ (w.after ts).drvsSeen.Nodup ∧
      ∀ n, n₀ ≤ n → writeElems (valueVariantToXml heap n) w l = some (.ok (w.after ts)) := by
  induction l generalizing w with
  | nil =>
    refine ⟨[], 0, .nil, ?_, fun n _ => ?_⟩
    · rwa [XmlEmitter.after_nil]
    · rw [XmlEmitter.after_nil]
      rfl
  | cons v l ih =>
    obtain ⟨t, n₁, ht, hnodup, h₁⟩ := h v List.mem_cons_self w hw
    obtain ⟨ts, n₂, hts, hnodup', h₂⟩ :=
      ih (fun v hv => h v (List.mem_cons_of_mem _ hv)) (w.after [t]) hnodup
    rw [XmlEmitter.after_after] at hnodup' h₂
    refine ⟨t :: ts, max n₁ n₂, .cons ht hts, hnodup', fun n hn => ?_⟩
    rw [writeElems, h₁ n ((Nat.le_max_left _ _).trans hn)]
    exact h₂ n ((Nat.le_max_right _ _).trans hn)

/-- The attributes of a set are written one after the other. -/
theorem exists_writeAttrsNaked {es : List (NixString × Value)} (h : ∀ e ∈ es, Writes heap e.2)
    (w : XmlEmitter) (hw : w.drvsSeen.Nodup) :
    ∃ ts n₀, List.Forall₂ (fun e t => Depicts heap e.2 t) es ts ∧
      (w.after (attrElems es ts)).drvsSeen.Nodup ∧
      ∀ n, n₀ ≤ n → writeAttrsNaked (valueVariantToXml heap n) w es =
        some (.ok (w.after (attrElems es ts))) := by
  induction es generalizing w with
  | nil =>
    refine ⟨[], 0, .nil, ?_, fun n _ => ?_⟩
    · rwa [attrElems, List.zipWith_nil_left, XmlEmitter.after_nil]
    · rw [attrElems, List.zipWith_nil_left, XmlEmitter.after_nil]
      rfl
  | cons e es ih =>
    obtain ⟨k, v⟩ := e
    have hopened : (w.opened .markup Xml.ATTR
        [(Xml.NAME, toStringLossy k.contents)]).drvsSeen.Nodup := by
      rwa [XmlEmitter.drvsSeen_opened]
    obtain ⟨t, n₁, ht, hnodup, h₁⟩ := h (k, v) List.mem_cons_self _ hopened
    rw [← drvsSeen_element] at hnodup
    obtain ⟨ts, n₂, hts, hnodup', h₂⟩ :=
      ih (fun e he => h e (List.mem_cons_of_mem _ he)) _ hnodup
    rw [XmlEmitter.after_after] at hnodup' h₂
    refine ⟨t :: ts, max n₁ n₂, .cons ht hts, hnodup', fun n hn => ?_⟩
    have hopen := w.writeOpenTag_eq Xml.ATTR [(Xml.NAME, toStringLossy k.contents)]
    have hraw : raw [(Xml.NAME, toStringLossy k.contents)] =
        [(Xml.NAME.val, toStringLossy k.contents)] := rfl
    rw [hraw] at hopen
    rw [writeAttrsNaked, hopen, Emitted.andThen, h₁ n ((Nat.le_max_left _ _).trans hn),
      Emitted.andThen, XmlEmitter.writeClosingTag_eq, Emitted.andThen]
    exact h₂ n ((Nat.le_max_right _ _).trans hn)

theorem writeArguments_eq (w : XmlEmitter) (arguments : List (NixString × Bool)) :
    writeArguments w arguments = some (.ok (w.after (arguments.map argElem))) := by
  induction arguments generalizing w with
  | nil =>
    rw [List.map_nil, XmlEmitter.after_nil]
    rfl
  | cons arg arguments ih =>
    have hself := w.writeSelfClosingTag_eq Xml.ATTR [(Xml.NAME, toStringLossy arg.1.contents)]
    have hraw : raw [(Xml.NAME, toStringLossy arg.1.contents)] =
        [(Xml.NAME.val, toStringLossy arg.1.contents)] := rfl
    rw [hraw] at hself
    rw [writeArguments, hself, Emitted.andThen, ih, XmlEmitter.after_after]
    rfl

theorem raw_shownFormals (formals : Formals) : raw (shownFormals formals) = formalsAttrs formals := by
  unfold shownFormals formalsAttrs
  cases formals.name <;> cases formals.ellipsis <;> rfl

theorem writePattern_eq (w : XmlEmitter) (lambda : LambdaShape) :
    writePattern w lambda = some (.ok (w.after [patternElem lambda])) := by
  unfold writePattern patternElem
  cases lambda.formals with
  | some formals =>
    have hpattern := andThen_element (fun w => writeArguments w formals.arguments) Xml.ATTRSPAT
      (shownFormals formals) (writeArguments_eq (w.opened .markup Xml.ATTRSPAT _) _)
    rw [raw_shownFormals] at hpattern
    exact hpattern
  | none => exact congrArg some (w.writeSelfClosingTag_eq Xml.VARPAT [(Xml.NAME, lambda.paramName)])

theorem writeFunction_eq (w : XmlEmitter) (lambda : LambdaShape) :
    writeFunction w lambda = some (.ok (w.after [functionElem lambda])) :=
  andThen_element (fun w => writePattern w lambda) Xml.FUNCTION [] (writePattern_eq _ lambda)

-- ====================
-- Values are written
-- ====================

theorem writes_of_eq {t : Elem Note} (hd : Depicts heap v t) (hnotes : expansions [t] = [])
    (h : ∀ w n, valueVariantToXml heap (n + 1) w v = some (.ok (w.after [t]))) : Writes heap v := by
  intro w hw
  refine ⟨t, 1, hd, ?_, fun n hn => ?_⟩
  · rwa [XmlEmitter.drvsSeen_after hnotes]
  · obtain ⟨n, rfl⟩ := Nat.exists_eq_add_of_le' hn
    exact h w n

theorem raw_shownPaths (a : AttrsRep Value) (drvPath : NixString) :
    raw (shownPaths heap a drvPath) = derivationPaths heap a drvPath := by
  unfold shownPaths derivationPaths
  cases (a.select Xml.OUT_PATH.val).bind heap.toContextfulStr <;> rfl

/-- What is written of a derivation with a path. -/
theorem writeDerivation_eq {into : XmlEmitter → Value → Emitted} {a : AttrsRep Value}
    {drvPath : NixString} (hpath : a.drvPath heap = some drvPath) :
    writeDerivation heap into w a =
      Emitted.andThen
        (if drvPath.contents ≠ [] ∧ drvPath.contents ∉ w.drvsSeen then
          writeAttrsNaked into
            (w.opened (.expansion drvPath.contents) Xml.DERIVATION (shownPaths heap a drvPath))
            a.iterSorted
        else
          some (.ok ((w.opened .markup Xml.DERIVATION (shownPaths heap a drvPath)).after
            [.leaf .markup Xml.REPEATED []])))
        fun w => some (w.writeClosingTag Xml.DERIVATION.val) := by
  have hselect : (a.select Xml.DRV_PATH.val).bind heap.toContextfulStr = some drvPath := hpath
  have hopen := w.writeOpenTag_eq Xml.DERIVATION (shownPaths heap a drvPath)
  have hself := (w.opened .markup Xml.DERIVATION (shownPaths heap a drvPath)).writeSelfClosingTag_eq
    Xml.REPEATED []
  have hseen : (w.opened .markup Xml.DERIVATION (shownPaths heap a drvPath)).drvsSeen =
      w.drvsSeen := XmlEmitter.drvsSeen_opened
  have hinsert : { w.opened .markup Xml.DERIVATION (shownPaths heap a drvPath) with
      drvsSeen := w.drvsSeen ++ [drvPath.contents] } =
      w.opened (.expansion drvPath.contents) Xml.DERIVATION (shownPaths heap a drvPath) := rfl
  rw [raw_shownPaths] at hopen
  simp only [writeDerivation, hselect]
  rw [hopen, Emitted.andThen, hseen, hinsert]
  split_ifs
  · rfl
  · exact congrArg (fun r => Emitted.andThen (some r) _) hself

/-- A derivation is written with its attributes, unless one with its path was before. -/
theorem writes_derivation {a : AttrsRep Value} (hd : a.isDerivation = true)
    (h : ∀ e ∈ a.iterSorted, Writes heap e.2) : Writes heap (.attrs a) := by
  intro w hw
  have hrun : ∀ n, valueVariantToXml heap (n + 1) w (.attrs a) =
      writeDerivation heap (valueVariantToXml heap n) w a := by
    intro n
    rw [valueVariantToXml, hd, if_pos rfl]
  cases hpath : a.drvPath heap with
  | none =>
    have hselect : (a.select Xml.DRV_PATH.val).bind heap.toContextfulStr = none := hpath
    refine ⟨.leaf .markup Xml.REPEATED [], 1, .pathless hd hpath, ?_, fun n hn => ?_⟩
    · rwa [XmlEmitter.drvsSeen_after rfl]
    · obtain ⟨n, rfl⟩ := Nat.exists_eq_add_of_le' hn
      rw [hrun, writeDerivation, hselect]
      exact congrArg some (w.writeSelfClosingTag_eq Xml.REPEATED [])
  | some drvPath =>
    by_cases hnew : drvPath.contents ≠ [] ∧ drvPath.contents ∉ w.drvsSeen
    · have hopened : (w.opened (.expansion drvPath.contents) Xml.DERIVATION
          (shownPaths heap a drvPath)).drvsSeen.Nodup := by
        show (w.drvsSeen ++ [drvPath.contents]).Nodup
        rw [← List.concat_eq_append]
        exact List.Nodup.concat hnew.2 hw
      obtain ⟨ts, n₀, hts, hnodup, hattrs⟩ := exists_writeAttrsNaked h _ hopened
      refine ⟨_, n₀ + 1, .expanded hd hpath hts, drvsSeen_element ▸ hnodup, fun n hn => ?_⟩
      obtain ⟨n, rfl⟩ := Nat.exists_eq_add_of_le' ((Nat.le_add_left 1 n₀).trans hn)
      rw [hrun, writeDerivation_eq hpath, if_pos hnew, hattrs n (by omega), Emitted.andThen,
        XmlEmitter.writeClosingTag_eq]
    · refine ⟨_, 1, .repeated hd hpath, ?_, fun n hn => ?_⟩
      · rwa [XmlEmitter.drvsSeen_after rfl]
      · obtain ⟨n, rfl⟩ := Nat.exists_eq_add_of_le' hn
        rw [hrun, writeDerivation_eq hpath, if_neg hnew, Emitted.andThen,
          XmlEmitter.writeClosingTag_eq]

theorem expansions_args (arguments : List (NixString × Bool)) :
    expansions (arguments.map argElem) = [] := by
  induction arguments with
  | nil => rfl
  | cons arg arguments ih => exact ih

theorem expansions_functionElem (lambda : LambdaShape) : expansions [functionElem lambda] = [] := by
  have hpattern : expansions [patternElem lambda] = [] := by
    unfold patternElem
    cases lambda.formals with
    | none => rfl
    | some formals =>
      have hargs := expansions_args formals.arguments
      rw [expansions] at hargs
      simp [expansions, notesAll, Elem.notes, Note.drvPath, List.filterMap_cons, hargs]
  simpa [functionElem, expansions, notesAll, Elem.notes, Note.drvPath, List.filterMap_cons]
    using hpattern

/-- Every such value is written. By induction on what it is made of. -/
theorem Printable.writes (h : Printable heap v) : Writes heap v := by
  induction h with
  | @thunk a _ ih =>
    intro w hw
    obtain ⟨t, n₀, ht, hnodup, hrun⟩ := ih w hw
    refine ⟨t, n₀ + 1, .thunk ht, hnodup, fun n hn => ?_⟩
    obtain ⟨n, rfl⟩ := Nat.exists_eq_add_of_le' ((Nat.le_add_left 1 n₀).trans hn)
    exact hrun n (by omega)
  | null => exact writes_of_eq .null rfl fun w n => writeNothing_eq w Xml.NULL
  | bool b => exact writes_of_eq (.bool b) rfl fun w n => writeTypedValue_eq w Xml.BOOL _
  | integer i => exact writes_of_eq (.integer i) rfl fun w n => writeTypedValue_eq w Xml.INT _
  | float f => exact writes_of_eq (.float f) rfl fun w n => writeTypedValue_eq w Xml.FLOAT _
  | @string s hutf8 =>
    refine writes_of_eq (.string s) rfl fun w n => ?_
    have hstr : s.asStr = .ok ⟨s.contents, hutf8⟩ := by
      rw [NixString.asStr, Utf8.ofBytes?, dif_pos hutf8]
    rw [← after_text, ← writeTypedValue_eq]
    simp only [valueVariantToXml, hstr]
  | path p => exact writes_of_eq (.path p) rfl fun w n => writeTypedValue_eq w Xml.PATH _
  | @list l _ ih =>
    intro w hw
    have hopened : (w.opened .markup Xml.LIST []).drvsSeen.Nodup := by
      rwa [XmlEmitter.drvsSeen_opened]
    obtain ⟨ts, n₀, hts, hnodup, hrun⟩ := exists_writeElems ih _ hopened
    refine ⟨_, n₀ + 1, .list hts, drvsSeen_element ▸ hnodup, fun n hn => ?_⟩
    obtain ⟨n, rfl⟩ := Nat.exists_eq_add_of_le' ((Nat.le_add_left 1 n₀).trans hn)
    exact andThen_element (fun w => writeElems (valueVariantToXml heap n) w l) Xml.LIST []
      (hrun n (by omega))
  | @attrs a _ ih =>
    cases hd : a.isDerivation with
    | true => exact writes_derivation hd ih
    | false =>
      intro w hw
      have hopened : (w.opened .markup Xml.ATTRS []).drvsSeen.Nodup := by
        rwa [XmlEmitter.drvsSeen_opened]
      obtain ⟨ts, n₀, hts, hnodup, hrun⟩ := exists_writeAttrsNaked ih _ hopened
      refine ⟨_, n₀ + 1, .attrs hd hts, drvsSeen_element ▸ hnodup, fun n hn => ?_⟩
      obtain ⟨n, rfl⟩ := Nat.exists_eq_add_of_le' ((Nat.le_add_left 1 n₀).trans hn)
      rw [valueVariantToXml, hd, if_neg Bool.false_ne_true]
      exact andThen_element (fun w => writeAttrsNaked (valueVariantToXml heap n) w a.iterSorted)
        Xml.ATTRS [] (hrun n (by omega))
  | closure c =>
    exact writes_of_eq (.closure c) (expansions_functionElem _) fun w n =>
      writeFunction_eq w (heap.lambda c)
  | builtin b => exact writes_of_eq (.builtin b) rfl fun w n => writeNothing_eq w Xml.UNEVALUATED

-- ====================
-- The document
-- ====================

end Snix.Eval
