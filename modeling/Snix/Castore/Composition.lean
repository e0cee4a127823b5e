import Snix.Lib.WaitGraph

/-!
# Composing stores

Stores are configured by name and refer to one another. A store is instantiated when
it is first asked for, by the call that asks for it; other calls wait until that is
done. What refers to itself is found by the names a call is instantiating.

## Main definitions

- `ServiceConfig`, `Slot`, `Builder` — configurations, and the state of each store
- `resolve`, `buildInternal` — what a reference comes to
- `compositionStep` — the steps of all calls, in any order

## Main results

- `composition_healthy_iff` — when no calls wait for one another for good
-/

namespace Snix.Castore

variable {T : Type} [DecidableEq T]

/-- The name of a store among those of its type. -/
abbrev InstanceKey (T : Type) := T × String

/-- A name prefixed with `&`, or any other text. -/
inductive Reference (T : Type) where
  | named (key : InstanceKey T)
  | other (s : String)
  deriving DecidableEq

/-- What a store refers to. All references are resolved at once; a store that fails fast does not
    wait for the others once one of them failed. -/
structure ServiceConfig (T : Type) where
  references : List (Reference T)
  failsFast : Bool
  deriving DecidableEq

inductive CompositionError where
  | notFound (name : String)
  | recursion (stack : List String)
  | invalidReference (s : String)
  | failed (name : String)
  deriving DecidableEq

/-- A reference that was resolved: its instance is awaited, or the answer is there. -/
inductive Awaited (T : Type) where
  | waiting (key : InstanceKey T)
  | answered (res : Except CompositionError Unit)

/-- An instantiation: the names being instantiated by its call, itself the last of them, and the
    references resolved so far. -/
structure Builder (T : Type) where
  config : ServiceConfig T
  stack : List (InstanceKey T)
  awaited : List (Awaited T)

/-- The state of a store. The future that instantiates it may be dropped before it ends. -/
inductive Slot (T : Type) where
  | absent
  | config (c : ServiceConfig T)
  | building (b : Builder T)
  | finished (res : Except CompositionError Unit)
  | dropped

abbrev Stores (T : Type) := InstanceKey T → Slot T

/-- Instantiates a store that was not, or waits for the call that does. -/
def buildInternal (stores : Stores T) (stack : List (InstanceKey T)) (key : InstanceKey T) :
    Awaited T × Stores T :=
  match stores key with
  | .absent => (.answered (.error (.notFound key.2)), stores)
  | .config c => (.waiting key, Function.update stores key (.building ⟨c, stack ++ [key], []⟩))
  | .building _ => (.waiting key, stores)
  | .finished res => (.answered res, stores)
  | .dropped => (.waiting key, stores)

def resolve (stores : Stores T) (stack : List (InstanceKey T)) : Reference T → Awaited T × Stores T
  | .other s => (.answered (.error (.invalidReference s)), stores)
  | .named key =>
    if key ∈ stack then (.answered (.error (.recursion (stack.map Prod.snd))), stores)
    else buildInternal stores stack key

def Awaited.error? : Awaited T → Option CompositionError
  | .answered (.error e) => some e
  | _ => none

def Builder.firstError (b : Builder T) : Option CompositionError := b.awaited.findSome? Awaited.error?

/-- An instantiation ends. The futures of those it drives are dropped if they did not end. -/
def finishWith (stores : Stores T) (key : InstanceKey T) (res : Except CompositionError Unit) :
    Stores T := fun k =>
  if k = key then .finished res
  else
    match stores k with
    | .building b => if key ∈ b.stack then .dropped else .building b
    | slot => slot

/-- A call panics, and everything it drives is dropped. -/
def unwind (stores : Stores T) (root : Option (InstanceKey T)) : Stores T := fun k =>
  match stores k with
  | .building b => if b.stack.head? = root then .dropped else .building b
  | slot => slot

/-- An instantiation got an answer, and goes on unless it fails. -/
def proceed (stores : Stores T) (key : InstanceKey T) (b : Builder T) (a : Awaited T) : Stores T :=
  if b.config.failsFast then
    match a.error? with
    | some e => finishWith stores key (.error e)
    | none => Function.update stores key (.building b)
  else Function.update stores key (.building b)

/-- The instantiation resolves its next reference. -/
def pollBuilder (stores : Stores T) (key : InstanceKey T) : Option (Stores T) :=
  match stores key with
  | .building b =>
    match b.config.references[b.awaited.length]? with
    | none => none
    | some reference =>
      let res := resolve stores b.stack reference
      some (proceed res.2 key { b with awaited := b.awaited ++ [res.1] } res.1)
  | _ => none

/-- What the instantiation waits for has ended. A sender that was dropped makes it panic. -/
def wakeBuilder (stores : Stores T) (key : InstanceKey T) (i : ℕ) : Option (Stores T) :=
  match stores key with
  | .building b =>
    match b.awaited[i]? with
    | some (.waiting k) =>
      match stores k with
      | .finished res =>
        some (proceed stores key { b with awaited := b.awaited.set i (.answered res) } (.answered res))
      | .dropped => some (unwind stores b.stack.head?)
      | _ => none
    | _ => none
  | _ => none

def Awaited.isAnswered : Awaited T → Bool
  | .waiting _ => false
  | .answered _ => true

/-- All references have answers. -/
def Builder.complete (b : Builder T) : Bool :=
  b.awaited.length = b.config.references.length && b.awaited.all Awaited.isAnswered

/-- The result of an instantiation. With all references there, building may fail by itself. -/
def Builder.result (b : Builder T) (key : InstanceKey T) (built : Bool) : Except CompositionError Unit :=
  match b.firstError with
  | some e => .error e
  | none => if built then .ok () else .error (.failed key.2)

def finishBuilder (stores : Stores T) (key : InstanceKey T) (built : Bool) : Option (Stores T) :=
  match stores key with
  | .building b => if b.complete then some (finishWith stores key (b.result key built)) else none
  | _ => none

/-- A call from outside, or a step of an instantiation. -/
inductive CompositionAction (T : Type) where
  | call (key : InstanceKey T)
  | poll (key : InstanceKey T)
  | wake (key : InstanceKey T) (i : ℕ)
  | finish (key : InstanceKey T) (built : Bool)

def compositionStep (stores : Stores T) : CompositionAction T → Option (Stores T)
  | .call key => some (buildInternal stores [] key).2
  | .poll key => pollBuilder stores key
  | .wake key i => wakeBuilder stores key i
  | .finish key built => finishBuilder stores key built

/-- The configurations, by name. -/
abbrev Configs (T : Type) := List (InstanceKey T × ServiceConfig T)

/-- No store is instantiated yet. -/
def Configs.stores (configs : Configs T) : Stores T := fun key =>
  match configs.lookup key with
  | none => .absent
  | some c => .config c

/-- Calls and instantiations in any order. -/
def Configs.Reachable (configs : Configs T) : Stores T → Prop :=
  Relation.ReflTransGen (fun s s' => ∃ a, compositionStep s a = some s') configs.stores

/-- Instantiations in progress that all wait for one another. -/
structure Deadlocked (stores : Stores T) (S : Set (InstanceKey T)) : Prop where
  nonempty : S.Nonempty
  waits : ∀ key ∈ S, ∃ b, ∃ i : ℕ, ∃ k, stores key = .building b ∧ b.awaited[i]? = some (.waiting k) ∧ k ∈ S

/-- No instantiations wait for one another, as long as there are any some of them can go on, and a
    reference to what is being instantiated is an error. -/
structure Healthy (stores : Stores T) : Prop where
  not_deadlocked : ∀ S, ¬ Deadlocked stores S
  goes_on : ∀ key b, stores key = .building b →
    ∃ a s', (∀ k, a ≠ .call k) ∧ compositionStep stores a = some s'
  recursion : ∀ key b (i : ℕ) k a, stores key = .building b → b.awaited[i]? = some a →
    b.config.references[i]? = some (.named k) → k ∈ b.stack →
    a = .answered (.error (.recursion (b.stack.map Prod.snd)))

/-- The reference of a store to a configured one is resolved, whatever the others come to: a store that
    fails fast does not get beyond one that is malformed, not configured or to itself. -/
def Configs.GetsTo (configs : Configs T) (key k : InstanceKey T) : Prop :=
  ∃ c, ∃ i : ℕ, configs.lookup key = some c ∧ c.references[i]? = some (.named k) ∧
    (configs.lookup k).isSome ∧
    (c.failsFast = true → ∀ j < i, ∃ k', c.references[j]? = some (.named k') ∧ k' ≠ key ∧
      (configs.lookup k').isSome)

-- ====================
-- What a step does to a store
-- ====================

/-- The instantiation of a store was begun. -/
def Slot.Started : Slot T → Prop
  | .absent => False
  | .config _ => False
  | _ => True

/-- Everything a step can do to one store. -/
inductive SlotChange (s s' : Stores T) (key : InstanceKey T) : Slot T → Slot T → Prop where
  | same (slot : Slot T) : SlotChange s s' key slot slot
  | started (c : ServiceConfig T) (stack : List (InstanceKey T)) :
      SlotChange s s' key (.config c) (.building ⟨c, stack ++ [key], []⟩)
  | polled (b : Builder T) (reference : Reference T) :
      b.config.references[b.awaited.length]? = some reference →
      (b.config.failsFast = true → (resolve s b.stack reference).1.error? = none) →
      (∀ k, (resolve s b.stack reference).1 = .waiting k → (s' k).Started) →
      SlotChange s s' key (.building b)
        (.building { b with awaited := b.awaited ++ [(resolve s b.stack reference).1] })
  | woken (b : Builder T) (i : ℕ) (k : InstanceKey T) (res : Except CompositionError Unit) :
      b.awaited[i]? = some (.waiting k) →
      SlotChange s s' key (.building b) (.building { b with awaited := b.awaited.set i (.answered res) })
  | finished (b : Builder T) (res : Except CompositionError Unit) :
      SlotChange s s' key (.building b) (.finished res)
  | dropped (b : Builder T) : SlotChange s s' key (.building b) .dropped

variable {s s' : Stores T} {key k : InstanceKey T} {stack : List (InstanceKey T)}

theorem buildInternal_stores (s : Stores T) (stack : List (InstanceKey T)) (key k : InstanceKey T) :
    (buildInternal s stack key).2 k = s k ∨
      k = key ∧ ∃ c, s k = .config c ∧
        (buildInternal s stack key).2 k = .building ⟨c, stack ++ [k], []⟩ := by
  unfold buildInternal
  cases hslot : s key with
  | config c =>
    by_cases hk : k = key
    · subst hk
      exact .inr ⟨rfl, c, hslot, Function.update_self _ _ _⟩
    · exact .inl (Function.update_of_ne hk _ _)
  | absent => exact .inl rfl
  | building b => exact .inl rfl
  | finished res => exact .inl rfl
  | dropped => exact .inl rfl

theorem resolve_stores (s : Stores T) (stack : List (InstanceKey T)) (reference : Reference T)
    (k : InstanceKey T) :
    (resolve s stack reference).2 k = s k ∨
      k ∉ stack ∧ ∃ c, s k = .config c ∧
        (resolve s stack reference).2 k = .building ⟨c, stack ++ [k], []⟩ := by
  cases reference with
  | other t => exact .inl rfl
  | named key =>
    rw [resolve]
    split_ifs with hmem
    · exact .inl rfl
    · obtain hsame | ⟨rfl, c, hc⟩ := buildInternal_stores s stack key k
      · exact .inl hsame
      · exact .inr ⟨hmem, c, hc⟩

/-- What is waited for was begun. -/
theorem started_of_resolve {reference : Reference T} (h : (resolve s stack reference).1 = .waiting k) :
    ((resolve s stack reference).2 k).Started := by
  cases reference with
  | other t => cases h
  | named key =>
    rw [resolve] at h ⊢
    split_ifs at h ⊢ with hmem
    unfold buildInternal at h ⊢
    cases hslot : s key with
    | absent =>
      rw [hslot] at h
      cases h
    | finished res =>
      rw [hslot] at h
      cases h
    | config c =>
      rw [hslot] at h
      cases h
      dsimp only
      rw [Function.update_self]
      trivial
    | building b =>
      rw [hslot] at h
      cases h
      dsimp only
      rw [hslot]
      trivial
    | dropped =>
      rw [hslot] at h
      cases h
      dsimp only
      rw [hslot]
      trivial

/-- What an instantiation that ends does to the others. -/
theorem finishWith_of_ne {res : Except CompositionError Unit} (h : k ≠ key) :
    finishWith s key res k = s k ∨ ∃ b, s k = .building b ∧ finishWith s key res k = .dropped := by
  unfold finishWith
  rw [if_neg h]
  cases hslot : s k with
  | building b =>
    dsimp only
    split_ifs with hmem
    · exact .inr ⟨b, rfl, rfl⟩
    · exact .inl rfl
  | absent => exact .inl rfl
  | config c => exact .inl rfl
  | finished res => exact .inl rfl
  | dropped => exact .inl rfl

theorem unwind_cases (s : Stores T) (root : Option (InstanceKey T)) (k : InstanceKey T) :
    unwind s root k = s k ∨ ∃ b, s k = .building b ∧ unwind s root k = .dropped := by
  unfold unwind
  cases hslot : s k with
  | building b =>
    dsimp only
    split_ifs with hroot
    · exact .inr ⟨b, rfl, rfl⟩
    · exact .inl rfl
  | absent => exact .inl rfl
  | config c => exact .inl rfl
  | finished res => exact .inl rfl
  | dropped => exact .inl rfl

/-- An instantiation with a new answer goes on, unless it fails. -/
theorem proceed_cases (s : Stores T) (key : InstanceKey T) (b : Builder T) (a : Awaited T) :
    (proceed s key b a = Function.update s key (.building b) ∧
        (b.config.failsFast = true → a.error? = none)) ∨
      ∃ e, a.error? = some e ∧ proceed s key b a = finishWith s key (.error e) := by
  unfold proceed
  split_ifs with hfast
  · cases he : a.error? with
    | some e => exact .inr ⟨e, rfl, rfl⟩
    | none => exact .inl ⟨rfl, fun _ => rfl⟩
  · exact .inl ⟨rfl, fun h => absurd h hfast⟩

theorem proceed_of_ne {b : Builder T} {a : Awaited T} (h : k ≠ key) :
    proceed s key b a k = s k ∨
      a.error?.isSome ∧ ∃ b', s k = .building b' ∧ proceed s key b a k = .dropped := by
  obtain ⟨heq, -⟩ | ⟨e, he, heq⟩ := proceed_cases s key b a
  · rw [heq, Function.update_of_ne h]
    exact .inl rfl
  · rw [heq, he]
    exact (finishWith_of_ne h).imp_right fun hdrop => ⟨rfl, hdrop⟩

theorem proceed_self (s : Stores T) (key : InstanceKey T) (b : Builder T) (a : Awaited T) :
    (proceed s key b a key = .building b ∧ (b.config.failsFast = true → a.error? = none)) ∨
      ∃ e, proceed s key b a key = .finished (.error e) := by
  obtain ⟨heq, hfast⟩ | ⟨e, -, heq⟩ := proceed_cases s key b a
  · rw [heq, Function.update_self]
    exact .inl ⟨rfl, hfast⟩
  · rw [heq]
    exact .inr ⟨e, if_pos rfl⟩

theorem Slot.Started.proceed {b : Builder T} {a : Awaited T} (h : (s k).Started) :
    (proceed s key b a k).Started := by
  by_cases hk : k = key
  · subst hk
    obtain ⟨heq, -⟩ | ⟨e, heq⟩ := proceed_self s k b a
    · rw [heq]
      trivial
    · rw [heq]
      trivial
  · obtain heq | ⟨-, b', -, heq⟩ := @proceed_of_ne _ _ s _ _ b a hk
    · rwa [heq]
    · rw [heq]
      trivial

/-- A poll that starts another store does not fail. -/
theorem resolve_of_started {reference : Reference T} {c : ServiceConfig T} (hc : s k = .config c)
    (h : (resolve s stack reference).2 k ≠ .config c) : (resolve s stack reference).1 = .waiting k := by
  cases reference with
  | other t => exact absurd hc h
  | named key =>
    rw [resolve] at h ⊢
    split_ifs at h ⊢ with hmem
    · exact absurd hc h
    · obtain hsame | ⟨rfl, c', hc', -⟩ := buildInternal_stores s stack key k
      · rw [hsame] at h
        exact absurd hc h
      · rw [buildInternal, hc']

theorem slotChange_pollBuilder (h : pollBuilder s key = some s') (k : InstanceKey T) :
    SlotChange s s' k (s k) (s' k) := by
  unfold pollBuilder at h
  cases hslot : s key with
  | absent | config | finished | dropped =>
    rw [hslot] at h
    cases h
  | building b =>
    rw [hslot] at h
    dsimp only at h
    cases href : b.config.references[b.awaited.length]? with
    | none =>
      rw [href] at h
      cases h
    | some reference =>
      rw [href] at h
      cases h
      by_cases hk : k = key
      · subst hk
        obtain ⟨heq, hfast⟩ | ⟨e, heq⟩ := proceed_self (resolve s b.stack reference).2 k
          { b with awaited := b.awaited ++ [(resolve s b.stack reference).1] } (resolve s b.stack reference).1
        · rw [heq, hslot]
          exact .polled b reference href hfast fun j hj => (started_of_resolve hj).proceed
        · rw [heq, hslot]
          exact .finished b _
      · obtain heq | ⟨herr, b', hb', heq⟩ := @proceed_of_ne _ _ (resolve s b.stack reference).2 _ _
          { b with awaited := b.awaited ++ [(resolve s b.stack reference).1] }
          (resolve s b.stack reference).1 hk
        · rw [heq]
          obtain hsame | ⟨-, c, hc, hnew⟩ := resolve_stores s b.stack reference k
          · rw [hsame]
            exact .same _
          · rw [hc, hnew]
            exact .started c b.stack
        · rw [heq]
          obtain hsame | ⟨-, c, hc, hnew⟩ := resolve_stores s b.stack reference k
          · rw [← hsame, hb']
            exact .dropped b'
          · rw [resolve_of_started hc (by rw [hnew]; nofun)] at herr
            cases herr

theorem slotChange_of_ended (h : s' k = s k ∨ ∃ b, s k = .building b ∧ s' k = .dropped) :
    SlotChange s s' k (s k) (s' k) := by
  obtain heq | ⟨b, hb, heq⟩ := h
  · rw [heq]
    exact .same _
  · rw [hb, heq]
    exact .dropped b

theorem slotChange_wakeBuilder {i : ℕ} (h : wakeBuilder s key i = some s') (k : InstanceKey T) :
    SlotChange s s' k (s k) (s' k) := by
  unfold wakeBuilder at h
  cases hslot : s key with
  | absent | config | finished | dropped =>
    rw [hslot] at h
    cases h
  | building b =>
    rw [hslot] at h
    dsimp only at h
    split at h
    · next j hj =>
      split at h
      · next res hres =>
        cases h
        by_cases hk : k = key
        · subst hk
          obtain ⟨heq, -⟩ | ⟨e, heq⟩ := proceed_self s k { b with awaited := b.awaited.set i (.answered res) }
            (.answered res)
          · rw [heq, hslot]
            exact .woken b i j res hj
          · rw [heq, hslot]
            exact .finished b _
        · apply slotChange_of_ended
          exact (proceed_of_ne hk).imp_right And.right
      · cases h
        exact slotChange_of_ended (unwind_cases s _ k)
      · cases h
    · cases h

theorem slotChange_finishBuilder {built : Bool} (h : finishBuilder s key built = some s')
    (k : InstanceKey T) : SlotChange s s' k (s k) (s' k) := by
  unfold finishBuilder at h
  cases hslot : s key with
  | absent | config | finished | dropped =>
    rw [hslot] at h
    cases h
  | building b =>
    rw [hslot] at h
    dsimp only at h
    split_ifs at h
    cases h
    by_cases hk : k = key
    · subst hk
      have heq : finishWith s k (b.result k built) k = .finished (b.result k built) := if_pos rfl
      rw [heq, hslot]
      exact .finished b _
    · exact slotChange_of_ended (finishWith_of_ne hk)

/-- Everything a step can do. -/
theorem slotChange_of_step {a : CompositionAction T} (h : compositionStep s a = some s')
    (k : InstanceKey T) : SlotChange s s' k (s k) (s' k) := by
  cases a with
  | call key =>
    cases h
    obtain hsame | ⟨-, c, hc, hnew⟩ := buildInternal_stores s [] key k
    · rw [hsame]
      exact .same _
    · rw [hc, hnew]
      exact .started c []
  | poll key => exact slotChange_pollBuilder h k
  | wake key i => exact slotChange_wakeBuilder h k
  | finish key built => exact slotChange_finishBuilder h k

-- ====================
-- What holds in every run
-- ====================

/-- What is known of an instantiation. -/
structure Builder.Inv (configs : Configs T) (s : Stores T) (key : InstanceKey T) (b : Builder T) : Prop where
  config : configs.lookup key = some b.config
  mem_stack : key ∈ b.stack
  length_le : b.awaited.length ≤ b.config.references.length
  waiting : ∀ (i : ℕ) k, b.awaited[i]? = some (.waiting k) →
    b.config.references[i]? = some (.named k) ∧ k ∉ b.stack ∧ (configs.lookup k).isSome ∧ (s k).Started
  recursion : ∀ (i : ℕ) k a, b.awaited[i]? = some a → b.config.references[i]? = some (.named k) →
    k ∈ b.stack → a = .answered (.error (.recursion (b.stack.map Prod.snd)))
  gotTo : b.config.failsFast = true → ∀ i < b.awaited.length,
    ∃ k, b.config.references[i]? = some (.named k) ∧ k ≠ key ∧ (configs.lookup k).isSome

/-- What is known of the stores. -/
structure Stores.Inv (configs : Configs T) (s : Stores T) : Prop where
  absent : ∀ key, s key = .absent ↔ configs.lookup key = none
  config : ∀ key c, s key = .config c → configs.lookup key = some c
  building : ∀ key b, s key = .building b → b.Inv configs s key

variable {configs : Configs T} {b : Builder T}

theorem Stores.inv_initial (configs : Configs T) : configs.stores.Inv configs := by
  refine ⟨fun key => ?_, fun key c h => ?_, fun key b h => ?_⟩
  · unfold Configs.stores
    cases configs.lookup key <;> simp
  · unfold Configs.stores at h
    cases hc : configs.lookup key with
    | none =>
      rw [hc] at h
      cases h
    | some c' =>
      rw [hc] at h
      cases h
      rfl
  · unfold Configs.stores at h
    cases hc : configs.lookup key <;> rw [hc] at h <;> cases h

theorem SlotChange.started_mono {slot slot' : Slot T} (h : SlotChange s s' key slot slot')
    (hstarted : slot.Started) : slot'.Started := by
  cases h with
  | same => exact hstarted
  | started => cases hstarted
  | polled | woken | finished | dropped => trivial

/-- What a reference comes to that is resolved. -/
theorem resolve_fst (hs : s.Inv configs) (stack : List (InstanceKey T)) (reference : Reference T) :
    (∀ k, (resolve s stack reference).1 = .waiting k →
        reference = .named k ∧ k ∉ stack ∧ (configs.lookup k).isSome) ∧
      ((resolve s stack reference).1.error? = none →
        ∃ k, reference = .named k ∧ k ∉ stack ∧ (configs.lookup k).isSome) := by
  have hconfigured : ∀ key, s key ≠ .absent → (configs.lookup key).isSome := by
    intro key hne
    rw [Option.isSome_iff_ne_none]
    exact mt (hs.absent key).mpr hne
  cases reference with
  | other t => exact ⟨nofun, nofun⟩
  | named key =>
    rw [resolve]
    split_ifs with hmem
    · exact ⟨nofun, nofun⟩
    · unfold buildInternal
      cases hslot : s key with
      | absent => exact ⟨nofun, nofun⟩
      | config c | building b | dropped =>
        have hsome := hconfigured key (by rw [hslot]; nofun)
        refine ⟨fun k hk => ?_, fun _ => ⟨key, rfl, hmem, hsome⟩⟩
        cases hk
        exact ⟨rfl, hmem, hsome⟩
      | finished res =>
        exact ⟨nofun, fun _ => ⟨key, rfl, hmem, hconfigured key (by rw [hslot]; nofun)⟩⟩

theorem Builder.Inv.polled (hs : s.Inv configs) (h : b.Inv configs s key) {reference : Reference T}
    (href : b.config.references[b.awaited.length]? = some reference)
    (hfast : b.config.failsFast = true → (resolve s b.stack reference).1.error? = none)
    (hstarted : ∀ k, (resolve s b.stack reference).1 = .waiting k → (s' k).Started)
    (hmono : ∀ k, (s k).Started → (s' k).Started) :
    Builder.Inv configs s' key { b with awaited := b.awaited ++ [(resolve s b.stack reference).1] } := by
  obtain ⟨hwait, hgood⟩ := resolve_fst hs b.stack reference
  -- what was there before, or the new one
  have hlast : ∀ {i : ℕ} {a}, (b.awaited ++ [(resolve s b.stack reference).1])[i]? = some a →
      b.awaited[i]? = some a ∨ i = b.awaited.length ∧ a = (resolve s b.stack reference).1 := by
    intro i a hi
    rcases Nat.lt_or_ge i b.awaited.length with hlt | hge
    · rw [List.getElem?_append_left hlt] at hi
      exact .inl hi
    · rw [List.getElem?_append_right hge, List.getElem?_singleton] at hi
      split_ifs at hi with h0
      exact .inr ⟨by omega, (Option.some.inj hi).symm⟩
  refine ⟨h.config, h.mem_stack, ?_, fun i k hi => ?_, fun i k a hi hk hmem => ?_, fun hf i hi => ?_⟩
  · rw [List.length_append, List.length_singleton]
    exact (List.getElem?_eq_some_iff.mp href).1
  · obtain hold | ⟨rfl, hnew⟩ := hlast hi
    · obtain ⟨h₁, h₂, h₃, h₄⟩ := h.waiting i k hold
      exact ⟨h₁, h₂, h₃, hmono k h₄⟩
    · obtain ⟨rfl, hnot, hsome⟩ := hwait k hnew.symm
      exact ⟨href, hnot, hsome, hstarted k hnew.symm⟩
  · obtain hold | ⟨rfl, rfl⟩ := hlast hi
    · exact h.recursion i k a hold hk hmem
    · rw [href] at hk
      cases hk
      rw [resolve, if_pos hmem]
  · rcases Nat.lt_or_ge i b.awaited.length with hlt | hge
    · exact h.gotTo hf i hlt
    · rw [List.length_append, List.length_singleton] at hi
      obtain rfl : i = b.awaited.length := by omega
      obtain ⟨k, rfl, hnot, hsome⟩ := hgood (hfast hf)
      refine ⟨k, href, ?_, hsome⟩
      rintro rfl
      exact hnot h.mem_stack

theorem Builder.Inv.woken (h : b.Inv configs s key) {i : ℕ} {res : Except CompositionError Unit}
    (hi : b.awaited[i]? = some (.waiting k)) (hmono : ∀ k, (s k).Started → (s' k).Started) :
    Builder.Inv configs s' key { b with awaited := b.awaited.set i (.answered res) } := by
  refine ⟨h.config, h.mem_stack, by rw [List.length_set]; exact h.length_le, fun j k' hj => ?_,
    fun j k' a hj hk' hmem => ?_, fun hf j hj => ?_⟩
  · rw [List.getElem?_set] at hj
    split_ifs at hj with hij hlt
    · cases hj
    · obtain ⟨h₁, h₂, h₃, h₄⟩ := h.waiting j k' hj
      exact ⟨h₁, h₂, h₃, hmono k' h₄⟩
  · rw [List.getElem?_set] at hj
    split_ifs at hj with hij hlt
    · -- what was waited for is not on the stack
      subst hij
      obtain ⟨hk, hnot, -⟩ := h.waiting i k hi
      rw [hk] at hk'
      cases hk'
      exact absurd hmem hnot
    · exact h.recursion j k' a hj hk' hmem
  · rw [List.length_set] at hj
    exact h.gotTo hf j hj

theorem Builder.Inv.mono (h : b.Inv configs s key) (hmono : ∀ k, (s k).Started → (s' k).Started) :
    b.Inv configs s' key :=
  ⟨h.config, h.mem_stack, h.length_le, fun i k hi =>
    have ⟨h₁, h₂, h₃, h₄⟩ := h.waiting i k hi
    ⟨h₁, h₂, h₃, hmono k h₄⟩, h.recursion, h.gotTo⟩

theorem Stores.Inv.step (hs : s.Inv configs) {a : CompositionAction T}
    (h : compositionStep s a = some s') : s'.Inv configs := by
  have hmono : ∀ k, (s k).Started → (s' k).Started := fun k =>
    (slotChange_of_step h k).started_mono
  refine ⟨fun key => ?_, fun key c hc => ?_, fun key b hb => ?_⟩
  · rw [← hs.absent key]
    have hchange := slotChange_of_step h key
    generalize s key = slot, s' key = slot' at hchange
    cases hchange <;> simp
  · have hchange := slotChange_of_step h key
    rw [hc] at hchange
    generalize hslot : s key = slot at hchange
    cases hchange
    exact hs.config key c hslot
  · have hchange := slotChange_of_step h key
    rw [hb] at hchange
    generalize hslot : s key = slot at hchange
    cases hchange with
    | same => exact (hs.building key b hslot).mono hmono
    | started c stack =>
      refine ⟨hs.config key c hslot, List.mem_append_right _ (List.mem_singleton_self key),
        Nat.zero_le _, nofun, nofun, fun _ i hi => ?_⟩
      cases hi
    | polled b reference href hfast hstarted =>
      exact (hs.building key b hslot).polled hs href hfast hstarted hmono
    | woken b i k res hi => exact (hs.building key b hslot).woken hi hmono

theorem Configs.Reachable.inv (h : configs.Reachable s) : s.Inv configs := by
  induction h with
  | refl => exact Stores.inv_initial configs
  | tail _ hstep ih =>
    obtain ⟨a, ha⟩ := hstep
    exact ih.step ha

theorem Builder.Inv.getsTo (h : b.Inv configs s key) {i : ℕ} (hi : b.awaited[i]? = some (.waiting k)) :
    configs.GetsTo key k ∧ k ≠ key := by
  obtain ⟨href, hnot, hsome, -⟩ := h.waiting i k hi
  refine ⟨⟨b.config, i, h.config, href, hsome, fun hfast j hj => ?_⟩, ?_⟩
  · exact h.gotTo hfast j (Nat.lt_trans hj (List.getElem?_eq_some_iff.mp hi).1)
  · rintro rfl
    exact hnot h.mem_stack

theorem lookup_mem {c : ServiceConfig T} (h : configs.lookup key = some c) :
    key ∈ configs.map Prod.fst := by
  obtain ⟨l₁, l₂, rfl, -⟩ := List.lookup_eq_some_iff.mp h
  simp

/-- Those who wait for one another reach one another. -/
theorem Deadlocked.exists_mutual {S : Set (InstanceKey T)} (hs : s.Inv configs) (h : Deadlocked s S) :
    ∃ key k, Mutual configs.GetsTo key k := by
  have hset : WaitSet configs.GetsTo S := by
    refine ⟨h.nonempty, fun key hkey => ?_⟩
    obtain ⟨b, i, k, hb, hi, hk⟩ := h.waits key hkey
    exact ⟨k, hk, (hs.building key b hb).getsTo hi⟩
  refine hset.exists_mutual ((configs.map Prod.fst).finite_toSet.subset fun key hkey => ?_)
  obtain ⟨b, -, -, hb, -⟩ := h.waits key hkey
  exact lookup_mem (hs.building key b hb).config

/-- If no instantiation can go on, they all wait for one another. -/
theorem deadlocked_of_stuck (hs : s.Inv configs) (hb : s key = .building b)
    (h : ∀ a, (∀ k, a ≠ .call k) → compositionStep s a = none) :
    Deadlocked s {k | ∃ b, s k = .building b} := by
  refine ⟨⟨key, b, hb⟩, ?_⟩
  rintro k ⟨b, hb⟩
  have hinv := hs.building k b hb
  -- its references are all resolved, and it is not complete
  have hall : b.config.references.length ≤ b.awaited.length := by
    by_contra hlt
    have hpoll := h (.poll k) nofun
    rw [compositionStep, pollBuilder, hb] at hpoll
    simp only [List.getElem?_eq_getElem (Nat.not_le.mp hlt)] at hpoll
    cases hpoll
  have hnot : b.complete = false := by
    have hfinish := h (.finish k true) nofun
    rw [compositionStep, finishBuilder, hb] at hfinish
    dsimp only at hfinish
    split_ifs at hfinish with hcomplete
    exact Bool.eq_false_of_not_eq_true hcomplete
  rw [Builder.complete, decide_eq_true (Nat.le_antisymm hinv.length_le hall), Bool.true_and,
    List.all_eq_false] at hnot
  obtain ⟨a, ha, hwaiting⟩ := hnot
  cases a with
  | answered res => exact absurd rfl hwaiting
  | waiting j =>
    obtain ⟨i, hi⟩ := List.mem_iff_getElem?.mp ha
    refine ⟨b, i, j, hb, hi, ?_⟩
    obtain ⟨-, -, -, hstarted⟩ := hinv.waiting i j hi
    -- what it waits for has not ended
    have hwake := h (.wake k i) nofun
    rw [compositionStep, wakeBuilder, hb] at hwake
    simp only [hi] at hwake
    cases hj : s j with
    | building b' => exact ⟨b', hj⟩
    | absent | config =>
      rw [hj] at hstarted
      cases hstarted
    | finished | dropped =>
      rw [hj] at hwake
      cases hwake

/-- If no two stores reach one another, everything is fine. -/
theorem Stores.Inv.healthy (hs : s.Inv configs) (h : ∀ key k, ¬ Mutual configs.GetsTo key k) :
    Healthy s := by
  have hdead : ∀ S, ¬ Deadlocked s S := by
    intro S hS
    obtain ⟨key, k, hmutual⟩ := hS.exists_mutual hs
    exact h key k hmutual
  refine ⟨hdead, fun key b hb => ?_, fun key b i k a hb => (hs.building key b hb).recursion i k a⟩
  by_contra hstuck
  refine hdead _ (deadlocked_of_stuck hs hb fun a ha => ?_)
  cases hstep : compositionStep s a with
  | none => rfl
  | some s' => exact absurd ⟨a, s', ha, hstep⟩ hstuck

-- ====================
-- A run that comes to a standstill
-- ====================

/-- No instantiation has ended. -/
def Quiet (s : Stores T) : Prop := ∀ k, (∀ res, s k ≠ .finished res) ∧ s k ≠ .dropped

/-- What changes on the way from one state to another: only what is not begun, and one store. -/
def Keeps (s s' : Stores T) (key : InstanceKey T) : Prop := ∀ k, k ≠ key → (s k).Started → s' k = s k

omit [DecidableEq T] in
theorem Keeps.trans {s'' : Stores T} (h : Keeps s s' key) (h' : Keeps s' s'' key) : Keeps s s'' key := by
  intro k hk hstarted
  have hsame := h k hk hstarted
  rw [← hsame] at hstarted
  exact (h' k hk hstarted).trans hsame

theorem quiet_resolve (h : Quiet s) (stack : List (InstanceKey T)) (reference : Reference T) :
    Quiet (resolve s stack reference).2 := by
  intro k
  obtain hsame | ⟨-, c, -, hnew⟩ := resolve_stores s stack reference k
  · rw [hsame]
    exact h k
  · rw [hnew]
    exact ⟨nofun, nofun⟩

/-- Resolving a reference to another configured store does not fail while nothing has ended. -/
theorem resolve_of_quiet (h : Quiet s) (hs : s.Inv configs) (hk : (configs.lookup k).isSome)
    (hnot : k ∉ stack) : (resolve s stack (.named k)).1 = .waiting k := by
  rw [resolve, if_neg hnot, buildInternal]
  cases hslot : s k with
  | absent =>
    rw [(hs.absent k).mp hslot] at hk
    cases hk
  | finished res => exact absurd hslot ((h k).1 res)
  | config | building | dropped => rfl

/-- A poll while nothing has ended. -/
theorem exists_poll (h : Quiet s) (hs : s.Inv configs) (hb : s key = .building b) (hstack : b.stack = [key])
    (reference : Reference T) (href : b.config.references[b.awaited.length]? = some reference)
    (hfast : b.config.failsFast = true → ∃ k, reference = .named k ∧ k ≠ key ∧ (configs.lookup k).isSome) :
    ∃ s', compositionStep s (.poll key) = some s' ∧ Quiet s' ∧ Keeps s s' key ∧
      s' key = .building { b with awaited := b.awaited ++ [(resolve s [key] reference).1] } := by
  have hstep : compositionStep s (.poll key) = some (proceed (resolve s [key] reference).2 key
      { b with awaited := b.awaited ++ [(resolve s [key] reference).1] }
      (resolve s [key] reference).1) := by
    rw [compositionStep, pollBuilder, hb]
    simp only [href, hstack]
  have hupdate : proceed (resolve s [key] reference).2 key
      { b with awaited := b.awaited ++ [(resolve s [key] reference).1] }
      (resolve s [key] reference).1 = Function.update (resolve s [key] reference).2 key
        (.building { b with awaited := b.awaited ++ [(resolve s [key] reference).1] }) := by
    unfold proceed
    split_ifs with hf
    · obtain ⟨k, rfl, hne, hk⟩ := hfast hf
      rw [resolve_of_quiet h hs hk (by simpa using hne)]
      rfl
    · rfl
  rw [hupdate] at hstep
  refine ⟨_, hstep, fun k => ?_, fun k hk hstarted => ?_, Function.update_self _ _ _⟩
  · by_cases hk : k = key
    · subst hk
      rw [Function.update_self]
      exact ⟨nofun, nofun⟩
    · rw [Function.update_of_ne hk]
      exact quiet_resolve h _ _ k
  · rw [Function.update_of_ne hk]
    obtain hsame | ⟨-, c, hc, -⟩ := resolve_stores s [key] reference k
    · exact hsame
    · rw [hc] at hstarted
      cases hstarted

/-- An instantiation gets to a reference, and waits for it. -/
theorem exists_polls (h : Quiet s) (hreach : configs.Reachable s) (hb : s key = .building b)
    (hstack : b.stack = [key]) (hnone : b.awaited = []) (hgets : configs.GetsTo key k) (hne : k ≠ key) :
    ∃ s' b', configs.Reachable s' ∧ Quiet s' ∧ Keeps s s' key ∧ s' key = .building b' ∧
      b'.stack = [key] ∧ ∃ i : ℕ, b'.awaited[i]? = some (.waiting k) := by
  obtain ⟨c, i, hc, href, hk, hfast⟩ := hgets
  obtain rfl : b.config = c := by
    have hconfig := (hreach.inv.building key b hb).config
    rw [hc] at hconfig
    exact (Option.some.inj hconfig).symm
  -- the references before it are resolved one after the other
  have hbefore : ∀ n ≤ i, ∃ s' b', configs.Reachable s' ∧ Quiet s' ∧ Keeps s s' key ∧
      s' key = .building b' ∧ b'.config = b.config ∧ b'.stack = [key] ∧ b'.awaited.length = n := by
    intro n
    induction n with
    | zero =>
      intro _
      exact ⟨s, b, hreach, h, fun _ _ _ => rfl, hb, rfl, hstack, by rw [hnone]; rfl⟩
    | succ n ih =>
      intro hn
      obtain ⟨s', b', hreach', hquiet', hkeeps', hb', hconfig', hstack', hlen'⟩ := ih (by omega)
      have hlt : n < b.config.references.length := by
        have := (List.getElem?_eq_some_iff.mp href).1
        omega
      have hpoll := exists_poll hquiet' hreach'.inv hb' hstack' b.config.references[n]
        (by rw [hconfig', hlen', List.getElem?_eq_getElem hlt]) (by
          rw [hconfig']
          intro hf
          obtain ⟨k', hk', hne', hsome'⟩ := hfast hf n (by omega)
          rw [List.getElem?_eq_getElem hlt] at hk'
          exact ⟨k', Option.some.inj hk', hne', hsome'⟩)
      obtain ⟨s'', hstep, hquiet'', hkeeps'', hb''⟩ := hpoll
      refine ⟨s'', _, hreach'.tail ⟨_, hstep⟩, hquiet'', hkeeps'.trans hkeeps'', hb'', hconfig', hstack', ?_⟩
      rw [List.length_append, hlen']
      rfl
  obtain ⟨s', b', hreach', hquiet', hkeeps', hb', hconfig', hstack', hlen'⟩ := hbefore i (Nat.le_refl i)
  obtain ⟨s'', hstep, hquiet'', hkeeps'', hb''⟩ := exists_poll hquiet' hreach'.inv hb' hstack' _
    (by rw [hconfig', hlen', href]) (fun _ => ⟨k, rfl, hne, hk⟩)
  refine ⟨s'', _, hreach'.tail ⟨_, hstep⟩, hquiet'', hkeeps'.trans hkeeps'', hb'', hstack', i, ?_⟩
  rw [List.getElem?_append_right (Nat.le_of_eq hlen'), hlen', Nat.sub_self,
    resolve_of_quiet hquiet' hreach'.inv hk (by simpa using hne)]
  rfl

theorem quiet_initial (configs : Configs T) : Quiet configs.stores := by
  intro k
  unfold Configs.stores
  cases configs.lookup k <;> exact ⟨nofun, nofun⟩

/-- Calls that each begin another store. -/
theorem exists_calls (keys : List (InstanceKey T)) (hkeys : ∀ key ∈ keys, (configs.lookup key).isSome) :
    ∃ s, configs.Reachable s ∧ Quiet s ∧ (∀ key ∈ keys, ∃ c, s key = .building ⟨c, [key], []⟩) ∧
      ∀ key ∉ keys, s key = configs.stores key := by
  induction keys with
  | nil => exact ⟨configs.stores, .refl, quiet_initial configs, nofun, fun _ _ => rfl⟩
  | cons key keys ih =>
    obtain ⟨s, hreach, hquiet, hin, hout⟩ := ih fun k hk => hkeys k (List.mem_cons_of_mem _ hk)
    by_cases hmem : key ∈ keys
    · refine ⟨s, hreach, hquiet, fun k hk => ?_, fun k hk => hout k fun h => hk (List.mem_cons_of_mem _ h)⟩
      rcases List.mem_cons.mp hk with rfl | hk
      · exact hin k hmem
      · exact hin k hk
    · obtain ⟨c, hc⟩ := Option.isSome_iff_exists.mp (hkeys key List.mem_cons_self)
      have hslot : s key = .config c := by
        rw [hout key hmem, Configs.stores, hc]
      have hstep : compositionStep s (.call key) =
          some (Function.update s key (.building ⟨c, [key], []⟩)) := by
        rw [compositionStep, buildInternal, hslot]
        rfl
      refine ⟨_, hreach.tail ⟨_, hstep⟩, fun k => ?_, fun k hk => ?_, fun k hk => ?_⟩
      · by_cases hkey : k = key
        · subst hkey
          rw [Function.update_self]
          exact ⟨nofun, nofun⟩
        · rw [Function.update_of_ne hkey]
          exact hquiet k
      · by_cases hkey : k = key
        · subst hkey
          exact ⟨c, Function.update_self _ _ _⟩
        · rw [Function.update_of_ne hkey]
          exact hin k ((List.mem_cons.mp hk).resolve_left hkey)
      · rw [List.mem_cons, not_or] at hk
        rw [Function.update_of_ne hk.1]
        exact hout k hk.2

/-- Some of the stores wait already, the others have not resolved anything. -/
theorem exists_waiting {S : Set (InstanceKey T)} (hset : WaitSet configs.GetsTo S)
    (hstart : ∃ s, configs.Reachable s ∧ Quiet s ∧ ∀ key ∈ S, ∃ c, s key = .building ⟨c, [key], []⟩)
    (keys : List (InstanceKey T)) (hkeys : ∀ key ∈ keys, key ∈ S) :
    ∃ s, configs.Reachable s ∧ Quiet s ∧ ∀ key ∈ S, ∃ b, s key = .building b ∧ b.stack = [key] ∧
      (key ∈ keys → ∃ i : ℕ, ∃ k ∈ S, b.awaited[i]? = some (.waiting k)) ∧
      (key ∉ keys → b.awaited = []) := by
  induction keys with
  | nil =>
    obtain ⟨s, hreach, hquiet, hall⟩ := hstart
    refine ⟨s, hreach, hquiet, fun key hkey => ?_⟩
    obtain ⟨c, hc⟩ := hall key hkey
    exact ⟨_, hc, rfl, nofun, fun _ => rfl⟩
  | cons key keys ih =>
    obtain ⟨s, hreach, hquiet, hall⟩ := ih fun k hk => hkeys k (List.mem_cons_of_mem _ hk)
    by_cases hmem : key ∈ keys
    · refine ⟨s, hreach, hquiet, fun k hk => ?_⟩
      obtain ⟨b, hb, hstack, hin, hout⟩ := hall k hk
      refine ⟨b, hb, hstack, fun hk' => ?_, fun hk' => hout fun h => hk' (List.mem_cons_of_mem _ h)⟩
      rcases List.mem_cons.mp hk' with rfl | hk'
      · exact hin hmem
      · exact hin hk'
    · have hkey := hkeys key List.mem_cons_self
      obtain ⟨b, hb, hstack, -, hout⟩ := hall key hkey
      obtain ⟨k, hk, hgets, hne⟩ := hset.next key hkey
      obtain ⟨s', b', hreach', hquiet', hkeeps, hb', hstack', i, hi⟩ :=
        exists_polls hquiet hreach hb hstack (hout hmem) hgets hne
      refine ⟨s', hreach', hquiet', fun j hj => ?_⟩
      by_cases hjkey : j = key
      · subst hjkey
        exact ⟨b', hb', hstack', fun _ => ⟨i, k, hk, hi⟩, fun hnot => absurd List.mem_cons_self hnot⟩
      · obtain ⟨bj, hbj, hstackj, hinj, houtj⟩ := hall j hj
        refine ⟨bj, ?_, hstackj, fun h => hinj ((List.mem_cons.mp h).resolve_left hjkey),
          fun h => houtj fun h' => h (List.mem_cons_of_mem _ h')⟩
        rw [hkeeps j hjkey (by rw [hbj]; trivial)]
        exact hbj

/-- Stores that reach one another can come to wait for one another. -/
theorem exists_deadlocked (h : Mutual configs.GetsTo key k) :
    ∃ s S, configs.Reachable s ∧ Deadlocked s S := by
  have hset := h.waitSet
  set S := {x | Relation.ReflTransGen configs.GetsTo key x ∧ Relation.ReflTransGen configs.GetsTo x key}
  have hconfigured : ∀ x ∈ S, ∃ c, configs.lookup x = some c := by
    intro x hx
    obtain ⟨y, -, ⟨c, i, hc, -⟩, -⟩ := hset.next x hx
    exact ⟨c, hc⟩
  have hfin : S.Finite := by
    refine (configs.map Prod.fst).finite_toSet.subset fun x hx => ?_
    obtain ⟨c, hc⟩ := hconfigured x hx
    exact lookup_mem hc
  have hmem : ∀ x, x ∈ hfin.toFinset.toList ↔ x ∈ S := by
    intro x
    rw [Finset.mem_toList, Set.Finite.mem_toFinset]
  obtain ⟨s₀, hreach₀, hquiet₀, hin₀, -⟩ := exists_calls hfin.toFinset.toList fun x hx => by
    obtain ⟨c, hc⟩ := hconfigured x ((hmem x).mp hx)
    rw [hc]
    rfl
  obtain ⟨s, hreach, -, hall⟩ := exists_waiting hset
    ⟨s₀, hreach₀, hquiet₀, fun x hx => hin₀ x ((hmem x).mpr hx)⟩ hfin.toFinset.toList
    fun x hx => (hmem x).mp hx
  refine ⟨s, S, hreach, hset.nonempty, fun x hx => ?_⟩
  obtain ⟨b, hb, -, hin, -⟩ := hall x hx
  obtain ⟨i, y, hy, hi⟩ := hin ((hmem x).mpr hx)
  exact ⟨b, i, y, hb, hi, hy⟩

/-- In all runs no calls wait for one another for good and references to oneself are errors, unless
    there are two stores that get to one another. -/
theorem composition_healthy_iff (configs : Configs T) :
    (∀ s, configs.Reachable s → Healthy s) ↔ ∀ key k, ¬ Mutual configs.GetsTo key k := by
  constructor
  · intro h key k hmutual
    obtain ⟨s, S, hreach, hdead⟩ := exists_deadlocked hmutual
    exact (h s hreach).not_deadlocked S hdead
  · intro h s hreach
    exact hreach.inv.healthy h

/-- Two caches that refer to each other. -/
def rootAndOther : Configs Unit :=
  [(((), "root"), ⟨[.named ((), "other"), .named ((), "other")], false⟩),
    (((), "other"), ⟨[.named ((), "root"), .named ((), "root")], false⟩)]

/-- Both are asked for at the same time: each begins one and then waits for the other. -/
def bothAtOnce : Option (Stores Unit) := do
  let s ← compositionStep rootAndOther.stores (.call ((), "root"))
  let s ← compositionStep s (.call ((), "other"))
  let s ← compositionStep s (.poll ((), "root"))
  compositionStep s (.poll ((), "other"))

theorem composition_deadlock :
    ∃ s, bothAtOnce = some s ∧ rootAndOther.Reachable s ∧
      Deadlocked s {((), "root"), ((), "other")} := by
  refine ⟨_, rfl, ?_, ⟨((), "root"), .inl rfl⟩, ?_⟩
  · exact (((Relation.ReflTransGen.single ⟨.call ((), "root"), rfl⟩).tail
      ⟨.call ((), "other"), rfl⟩).tail ⟨.poll ((), "root"), rfl⟩).tail ⟨.poll ((), "other"), rfl⟩
  · rintro key (rfl | rfl)
    · exact ⟨_, 0, ((), "other"), rfl, rfl, .inr rfl⟩
    · exact ⟨_, 0, ((), "root"), rfl, rfl, .inl rfl⟩

end Snix.Castore
