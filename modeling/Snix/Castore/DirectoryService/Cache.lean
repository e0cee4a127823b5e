import Snix.Castore.DirectoryService.SimplePutter
import Snix.Castore.DirectoryService.Traversal

/-!
# A cache of directories

Directories are looked for near first. What is not there is asked for from afar,
always with everything below it, and is put near when all of it has arrived.

What is near is served without asking afar. That is right because whatever is near
is there with everything below it, also after puts that broke off.

## Main definitions

- `Cache.get`, `Cache.getRecursive`
- `ClosureOf` — the directories below a digest, each once, and the root first
- `Cache.Reply.Matches` — an answer that is the same as the one from afar

## Main results

- `cache_closed` — near stays closed, and answers are those from afar
- `cache_closed_near_only` — except for what only near has
-/

namespace Snix.Castore

namespace Cache

inductive Error where
  | directoryOrdering (fault : Fault)
  | nearGet
  | nearPut (e : PutterError)
  | farGet
  | panic (message : String)

/-- How the two stores answer during one call. Near may fail after some of its answers; afar gives
    some directories and then ends, or fails. -/
structure Env where
  nearFails : Option ℕ
  far : List Directory
  farFails : Bool
  put : ℕ → PutOutcome

section

variable (digest : Directory → B3Digest) (checks debug : Bool)
  (bfs dfsPostOrder : DiGraph Directory → ℕ → List ℕ)

/-- Puts a graph into near. -/
def fill (env : Env) (root : B3Digest) (graph : DirectoryGraph) (near : DigestMap Directory) :
    Except Error Unit × DigestMap Directory :=
  match graph.drain bfs dfsPostOrder .leavesToRoot with
  | none => (.error (.panic "index out of bounds"), near)
  | some directories =>
    match SimplePutter.putMultiple digest checks .new directories with
    | .error e => (.error (.nearPut e), near)
    | .ok putter =>
      match putter.close digest debug bfs dfsPostOrder env.put near with
      | (.error e, near) => (.error (.nearPut e), near)
      | (.ok actualDigest, near) =>
        if debug ∧ root ≠ actualDigest then
          (.error (.panic "assertion failed: digest == actual_digest"), near)
        else (.ok (), near)

/-- Receives the directories from afar. Returns those that were accepted, and the builder. -/
def receive (env : Env) : DirectoryGraphBuilder → List Directory →
    List Directory × Except Error DirectoryGraphBuilder
  | builder, [] => ([], if env.farFails then .error .farGet else .ok builder)
  | builder, directory :: rest =>
    match builder.tryInsert digest checks directory with
    | .error e => ([], .error (.directoryOrdering e))
    | .ok builder =>
      let (received, r) := receive env builder rest
      (directory :: received, r)

def get (env : Env) (near : DigestMap Directory) (root : B3Digest) :
    Except Error (Option Directory) × DigestMap Directory :=
  if env.nearFails.isSome then (.error .nearGet, near)
  else
    match near.lookup root with
    | some directory => (.ok (some directory), near)
    | none =>
      match receive digest checks env (.newRootToLeaves root) env.far with
      | (_, .error e) => (.error e, near)
      | ([], .ok _) => (.ok none, near)
      | (respDirectory :: _, .ok builder) =>
        match builder.build digest debug with
        | .error e => (.error (.directoryOrdering e), near)
        | .ok graph =>
          match fill digest checks debug bfs dfsPostOrder env root graph near with
          | (.error e, near) => (.error e, near)
          | (.ok (), near) => (.ok (some respDirectory), near)

/-- The directories that are yielded, how the stream ends, and what is near then. -/
def getRecursive (env : Env) (near : DigestMap Directory) (root : B3Digest) :
    List Directory × Except Error Unit × DigestMap Directory :=
  match env.nearFails with
  | some n =>
    match rootToLeaves near root with
    | none => ([], .error .nearGet, near)
    | some (directories, _) => (directories.take n, .error .nearGet, near)
  | none =>
    match rootToLeaves near root with
    | none => ([], .error .nearGet, near)
    | some (directories, some _) => (directories, .error .nearGet, near)
    | some (first :: directories, none) => (first :: directories, .ok (), near)
    | some ([], none) =>
      match receive digest checks env (.newRootToLeaves root) env.far with
      | (received, .error e) => (received, .error e, near)
      | (received, .ok builder) =>
        match builder.build digest debug with
        | .ok graph =>
          match fill digest checks debug bfs dfsPostOrder env root graph near with
          | (.error e, near) => (received, .error e, near)
          | (.ok (), near) => (received, .ok (), near)
        | .error (.error .emptySet) => (received, .ok (), near)
        | .error e => (received, .error (.directoryOrdering e), near)

inductive Call where
  | get (root : B3Digest)
  | getRecursive (root : B3Digest)

def Call.root : Call → B3Digest
  | .get root => root
  | .getRecursive root => root

inductive Reply where
  | directory (r : Except Error (Option Directory))
  | directories (yielded : List Directory) (r : Except Error Unit)

def step (env : Env) (near : DigestMap Directory) : Call → Reply × DigestMap Directory
  | .get root =>
    let (r, near) := get digest checks debug bfs dfsPostOrder env near root
    (.directory r, near)
  | .getRecursive root =>
    let (yielded, r, near) := getRecursive digest checks debug bfs dfsPostOrder env near root
    (.directories yielded r, near)

/-- A call that was made: what was near before, the call and the reply. -/
structure Event where
  near : DigestMap Directory
  call : Call
  reply : Reply

/-- A sequence of calls, and what is near after them. -/
def run (near : DigestMap Directory) : List (Call × Env) → List Event × DigestMap Directory
  | [] => ([], near)
  | (call, env) :: rest =>
    let (reply, near') := step digest checks debug bfs dfsPostOrder env near call
    let (events, near'') := run near' rest
    (⟨near, call, reply⟩ :: events, near'')

end

-- ====================
-- Closures and answers
-- ====================

/-- The directories below a digest, each once, and the root first. -/
structure ClosureOf (digest : Directory → B3Digest) (world : DigestMap Directory) (root : B3Digest)
    (directories : List Directory) : Prop where
  first : ∃ d, directories.head? = some d ∧ digest d = root
  nodup : directories.Nodup
  mem_iff : ∀ d, d ∈ directories ↔ world.lookup (digest d) = some d ∧ Reaches world root (digest d)

/-- The answer from afar: the closure of a digest that is there, and nothing for any other. -/
def FarAnswer (digest : Directory → B3Digest) (world : DigestMap Directory) (far : B3Digest → Prop)
    (root : B3Digest) (directories : List Directory) : Prop :=
  far root ∧ ClosureOf digest world root directories ∨ ¬far root ∧ directories = []

/-- What comes from afar are directories of the world, and it is the answer if afar does not
    fail. -/
structure Env.Serves (env : Env) (digest : Directory → B3Digest) (world : DigestMap Directory)
    (far : B3Digest → Prop) (root : B3Digest) : Prop where
  stored : ∀ d ∈ env.far, world.lookup (digest d) = some d
  answer : env.farFails = false → FarAnswer digest world far root env.far

/-- A reply that says the same as the answer from afar, or that nothing could be found out. -/
def Reply.Matches (directories : List Directory) : Reply → Prop
  | .directory (.ok d) => d = directories.head?
  | .directories yielded (.ok ()) =>
    yielded.Perm directories ∧ yielded.head? = directories.head? ∧ yielded.Nodup
  | _ => True

variable {digest : Directory → B3Digest} {checks debug : Bool}
  {bfs dfsPostOrder : DiGraph Directory → ℕ → List ℕ} {world near : DigestMap Directory}
  {far : B3Digest → Prop} {root : B3Digest} {env : Env}

-- ====================
-- Near stays closed
-- ====================

/-- What is near is closed, and part of the world. -/
structure Inv (world near : DigestMap Directory) : Prop where
  closed : ClosedStore near
  stored : ∀ k d, near.lookup k = some d → world.lookup k = some d

theorem eq_of_receive {b b' : DirectoryGraphBuilder} {l received : List Directory}
    (h : receive digest checks env b l = (received, .ok b')) :
    received = l ∧ b.insertAll digest checks l = .ok b' ∧ env.farFails = false := by
  induction l generalizing b received with
  | nil =>
    unfold receive at h
    cases hfails : env.farFails with
    | true => simp [hfails] at h
    | false =>
      simp only [hfails, Bool.false_eq_true, if_false, Prod.mk.injEq, Except.ok.injEq] at h
      exact ⟨h.1.symm, congrArg Except.ok h.2, rfl⟩
  | cons d l ih =>
    unfold receive at h
    cases hd : b.tryInsert digest checks d with
    | error e =>
      rw [hd] at h
      cases h
    | ok b₁ =>
      rw [hd] at h
      cases hrest : receive digest checks env b₁ l with
      | mk received' r =>
        simp only [hrest, Prod.mk.injEq] at h
        obtain ⟨rfl, rfl⟩ := h
        obtain ⟨rfl, hinsert, hfails⟩ := ih hrest
        refine ⟨rfl, ?_, hfails⟩
        unfold DirectoryGraphBuilder.insertAll
        rw [List.foldlM_cons, hd]
        exact hinsert

open DirectoryGraphBuilder in
/-- A graph that came from afar goes to near, or part of it does. -/
theorem fill_spec (haddr : Addressed digest world)
    (hdfs : ∀ g : DiGraph Directory, g.Acyclic → ∀ root, g.IsPostOrder root (dfsPostOrder g root))
    {directories : List Directory} (hstored : ∀ d ∈ directories, world.lookup (digest d) = some d)
    {graph : DirectoryGraph}
    (hok : ((newRootToLeaves root).insertAll digest checks directories >>= build digest debug) =
      .ok graph) (h : Inv world near) :
    ∃ r near', fill digest checks debug bfs dfsPostOrder env root graph near = (r, near') ∧
      Inv world near' := by
  have hfree : (Directory.merkle digest checks).CollisionFree directories := haddr.collisionFree hstored
  obtain ⟨out, hdrain, -, hmem, hbottomUp⟩ := drain_leavesToRoot bfs dfsPostOrder hfree
    (.inr ⟨root, rfl⟩) hok fun hacyclic => hdfs _ hacyclic _
  have hsub : out ⊆ directories := fun d hd => (hmem d).mp hd
  have hsub' : directories ⊆ out := fun d hd => (hmem d).mpr hd
  have hunique : (Directory.merkle digest checks).UniqueRoot out := by
    obtain ⟨⟨k, hk, hk'⟩, -⟩ := root_of_build hfree (.inr ⟨root, rfl⟩) hok
    exact ⟨k, (Merkle.root_congr hsub hsub').mpr hk,
      fun k' hroot => hk' k' ((Merkle.root_congr hsub hsub').mp hroot)⟩
  -- the putter receives what was drained, and builds the same graph again
  have hfree' := hfree.of_subset hsub
  obtain ⟨g', hg'⟩ := (accepts_iff_leavesToRoot hfree' debug).mpr ⟨hbottomUp, hunique⟩
  cases hinsert : newLeavesToRoot.insertAll digest checks out with
  | error e =>
    rw [hinsert] at hg'
    cases hg'
  | ok b =>
    rw [hinsert] at hg'
    obtain ⟨r, near', hclose, hclosed, hlookup⟩ :=
      @SimplePutter.close_spec digest checks near debug bfs dfsPostOrder out b g' hfree' hinsert hg'
        hdfs env.put h.closed
    have hput : SimplePutter.putMultiple digest checks .new out = .ok ⟨some b⟩ :=
      SimplePutter.putMultiple_of_insertAll hinsert
    have hinv : Inv world near' := by
      refine ⟨hclosed, fun k d hd => ?_⟩
      rcases hlookup k d hd with hnear | ⟨hmem, rfl⟩
      · exact h.stored k d hnear
      · exact hstored d (hsub hmem)
    unfold fill
    simp only [hdrain, hput, hclose]
    cases r with
    | error e => exact ⟨_, near', rfl, hinv⟩
    | ok actualDigest =>
      dsimp only
      split
      · exact ⟨_, near', rfl, hinv⟩
      · exact ⟨_, near', rfl, hinv⟩

-- ====================
-- Answers
-- ====================

theorem ClosureOf.perm {l l' : List Directory} (h : ClosureOf digest world root l)
    (h' : ClosureOf digest world root l') : l.Perm l' := by
  rw [List.perm_ext_iff_of_nodup h.nodup h'.nodup]
  intro d
  rw [h.mem_iff, h'.mem_iff]

theorem ClosureOf.head_mem {l : List Directory} (h : ClosureOf digest world root l) :
    ∃ d, l.head? = some d ∧ world.lookup root = some d := by
  obtain ⟨d, hd, rfl⟩ := h.first
  exact ⟨d, hd, ((h.mem_iff d).mp (List.mem_of_mem_head? hd)).1⟩

theorem ClosureOf.head_eq {l l' : List Directory} (h : ClosureOf digest world root l)
    (h' : ClosureOf digest world root l') : l.head? = l'.head? := by
  obtain ⟨d, hd, hworld⟩ := h.head_mem
  obtain ⟨d', hd', hworld'⟩ := h'.head_mem
  rw [hworld, Option.some.injEq] at hworld'
  rw [hd, hd', hworld']

/-- A traversal of a closed store gives the closure of the root. -/
theorem closureOf_of_complete {directories : List Directory}
    (hstored : ∀ d ∈ directories, world.lookup (digest d) = some d)
    (hnodup : (directories.map digest).Nodup)
    (hrooted : (Directory.merkle digest checks).Rooted root directories)
    (hcomplete : (Directory.merkle digest checks).Complete root directories) :
    ClosureOf digest world root directories where
  first := by
    cases directories with
    | nil =>
      obtain ⟨d, hd, -⟩ := hcomplete root (.inl rfl)
      cases hd
    | cons d rest =>
      refine ⟨d, rfl, ?_⟩
      rcases hrooted [] d rest rfl with hroot | ⟨s, hs⟩
      · exact hroot
      · cases hs
  nodup := hnodup.of_map digest
  mem_iff := by
    intro d
    constructor
    · intro hd
      exact ⟨hstored d hd, reaches_of_rooted hstored hrooted d hd⟩
    · rintro ⟨hd, hreach⟩
      exact mem_of_has hstored (has_of_reaches hstored hcomplete hreach) hd

/-- What near serves: nothing if it does not have the root, and everything below it otherwise. -/
theorem rootToLeaves_near (haddr : Addressed digest world) (h : Inv world near) (root : B3Digest) :
    ∃ directories, rootToLeaves near root = some (directories, none) ∧
      (directories = [] ∧ near.lookup root = none ∨
        (near.lookup root).isSome ∧ ClosureOf digest world root directories) := by
  obtain ⟨directories, e, hloop, hstored, hnodup, hrooted, hend⟩ :=
    rootToLeaves_spec true (haddr.of_subset h.stored) root
  cases e with
  | none =>
    refine ⟨directories, hloop, ?_⟩
    rcases hend with hcomplete | hmissing
    · have hclosure : ClosureOf digest world root directories :=
        closureOf_of_complete (fun d hd => h.stored _ _ (hstored d hd)) hnodup hrooted hcomplete
      obtain ⟨d, hd, rfl⟩ := hclosure.first
      have hroot := hstored d (List.mem_of_mem_head? hd)
      exact .inr ⟨by rw [hroot]; rfl, hclosure⟩
    · exact .inl hmissing
  | some e =>
    -- a directory that is missing would have to be the root
    obtain ⟨k⟩ := e
    obtain ⟨hreach, hne, hmissing⟩ := hend
    exfalso
    rcases Relation.ReflTransGen.cases_tail hreach with heq | ⟨k', -, d, hd, child, hchild, rfl⟩
    · exact hne heq
    · have hsome := h.closed k' d hd child hchild
      rw [hmissing] at hsome
      cases hsome

/-- What one call does. -/
structure StepWell (digest : Directory → B3Digest) (world : DigestMap Directory)
    (far : B3Digest → Prop) (near : DigestMap Directory) (root : B3Digest)
    (r : Reply × DigestMap Directory) : Prop where
  inv : Inv world r.2
  answer : far root ∨ near.lookup root = none → ∀ directories,
    FarAnswer digest world far root directories → r.1.Matches directories

/-- A reply that tells nothing. -/
theorem StepWell.failed {near' : DigestMap Directory} {reply : Reply} (h : Inv world near)
    (hreply : ∀ directories, reply.Matches directories) :
    StepWell digest world far near' root (reply, near) :=
  ⟨h, fun _ directories _ => hreply directories⟩

open DirectoryGraphBuilder in
theorem get_spec (haddr : Addressed digest world)
    (hdfs : ∀ g : DiGraph Directory, g.Acyclic → ∀ root, g.IsPostOrder root (dfsPostOrder g root))
    (henv : env.Serves digest world far root) (h : Inv world near) :
    StepWell digest world far near root
      (step digest checks debug bfs dfsPostOrder env near (.get root)) := by
  have hfailed : ∀ (e : Error) (near' : DigestMap Directory), Inv world near' →
      StepWell digest world far near root (.directory (.error e), near') :=
    fun _ _ h' => .failed h' fun _ => trivial
  unfold step get
  dsimp only
  split
  · exact hfailed _ _ h
  · split
    · next directory hdirectory =>
      refine ⟨h, ?_⟩
      rintro (hfar | hnone) directories hanswer
      · rcases hanswer with ⟨-, hclosure⟩ | ⟨hnot, -⟩
        · obtain ⟨d, hd, hworld⟩ := hclosure.head_mem
          rw [h.stored root directory hdirectory] at hworld
          exact hworld.trans hd.symm
        · exact absurd hfar hnot
      · rw [hdirectory] at hnone
        cases hnone
    · split
      · exact hfailed _ _ h
      · next builder hreceive =>
        -- nothing came from afar, so there is nothing there
        obtain ⟨hnil, -, hfails⟩ := eq_of_receive hreceive
        refine ⟨h, ?_⟩
        rintro - directories hanswer
        rcases henv.answer hfails with ⟨-, hclosure⟩ | ⟨hnot, -⟩
        · obtain ⟨d, hd, -⟩ := hclosure.first
          rw [← hnil] at hd
          cases hd
        · rcases hanswer with ⟨hfar, -⟩ | ⟨-, rfl⟩
          · exact absurd hfar hnot
          · rfl
      · next respDirectory received builder hreceive =>
        obtain ⟨hreceived, hinsert, hfails⟩ := eq_of_receive hreceive
        split
        · exact hfailed _ _ h
        · next graph hbuild =>
          have hok : ((newRootToLeaves root).insertAll digest checks env.far >>=
              build digest debug) = .ok graph := by
            rw [hinsert]
            exact hbuild
          obtain ⟨r, near', hfill, hinv⟩ :=
            @fill_spec digest checks debug bfs dfsPostOrder world near root env haddr hdfs env.far
              henv.stored graph hok h
          simp only [hfill]
          cases r with
          | error e => exact hfailed _ _ hinv
          | ok u =>
            refine ⟨hinv, ?_⟩
            rintro - directories hanswer
            show some respDirectory = directories.head?
            have hhead : env.far.head? = some respDirectory := by
              rw [← hreceived]
              rfl
            rw [← hhead]
            rcases henv.answer hfails with ⟨hfar, hclosure⟩ | ⟨-, hnil⟩
            · rcases hanswer with ⟨-, hclosure'⟩ | ⟨hnot, -⟩
              · exact hclosure.head_eq hclosure'
              · exact absurd hfar hnot
            · rw [hnil] at hhead
              cases hhead

open DirectoryGraphBuilder in
theorem getRecursive_spec (haddr : Addressed digest world)
    (hdfs : ∀ g : DiGraph Directory, g.Acyclic → ∀ root, g.IsPostOrder root (dfsPostOrder g root))
    (henv : env.Serves digest world far root) (h : Inv world near) :
    StepWell digest world far near root
      (step digest checks debug bfs dfsPostOrder env near (.getRecursive root)) := by
  have hfailed : ∀ (yielded : List Directory) (e : Error) (near' : DigestMap Directory),
      Inv world near' → StepWell digest world far near root (.directories yielded (.error e), near') :=
    fun _ _ _ h' => .failed h' fun _ => trivial
  obtain ⟨directories, htraverse, hnear⟩ := rootToLeaves_near haddr h root
  unfold step getRecursive
  simp only [htraverse]
  cases hfailsNear : env.nearFails with
  | some n => exact hfailed _ _ _ h
  | none =>
    cases directories with
    | cons first directories =>
      obtain ⟨hroot, hclosure⟩ := hnear.resolve_left fun hnil => List.cons_ne_nil _ _ hnil.1
      refine ⟨h, ?_⟩
      rintro hserved answer hanswer
      rcases hanswer with ⟨-, hclosure'⟩ | ⟨hnot, -⟩
      · exact ⟨hclosure.perm hclosure', hclosure.head_eq hclosure', hclosure.nodup⟩
      · exfalso
        rcases hserved with hfar | hnone
        · exact hnot hfar
        · rw [hnone] at hroot
          cases hroot
    | nil =>
      dsimp only
      cases hreceive : receive digest checks env (newRootToLeaves root) env.far with
      | mk received r =>
        cases r with
        | error e => exact hfailed _ _ _ h
        | ok builder =>
          obtain ⟨hreceived, hinsert, hfails⟩ := eq_of_receive hreceive
          subst hreceived
          -- whatever ends well has yielded what came from afar
          have hanswered : ∀ near', Inv world near' →
              StepWell digest world far near root (.directories env.far (.ok ()), near') := by
            intro near' h'
            refine ⟨h', ?_⟩
            rintro - answer hanswer
            rcases henv.answer hfails with ⟨hfar, hclosure⟩ | ⟨hnot, hnil⟩
            · rcases hanswer with ⟨-, hclosure'⟩ | ⟨hnot, -⟩
              · exact ⟨hclosure.perm hclosure', hclosure.head_eq hclosure', hclosure.nodup⟩
              · exact absurd hfar hnot
            · rcases hanswer with ⟨hfar, -⟩ | ⟨-, rfl⟩
              · exact absurd hfar hnot
              · rw [hnil]
                exact ⟨.refl _, rfl, List.nodup_nil⟩
          dsimp only
          split
          · next graph hbuild =>
            have hok : ((newRootToLeaves root).insertAll digest checks env.far >>=
                build digest debug) = .ok graph := by
              rw [hinsert]
              exact hbuild
            obtain ⟨r, near', hfill, hinv⟩ :=
              @fill_spec digest checks debug bfs dfsPostOrder world near root env haddr hdfs env.far
                henv.stored graph hok h
            simp only [hfill]
            cases r with
            | error e => exact hfailed _ _ _ hinv
            | ok u => exact hanswered _ hinv
          · exact hanswered _ h
          · exact hfailed _ _ _ h

theorem step_spec (haddr : Addressed digest world)
    (hdfs : ∀ g : DiGraph Directory, g.Acyclic → ∀ root, g.IsPostOrder root (dfsPostOrder g root))
    (call : Call) (henv : env.Serves digest world far call.root) (h : Inv world near) :
    StepWell digest world far near call.root
      (step digest checks debug bfs dfsPostOrder env near call) := by
  cases call with
  | get root => exact get_spec haddr hdfs henv h
  | getRecursive root => exact getRecursive_spec haddr hdfs henv h

/-- Every call of a run is made on a closed store, and answered well. -/
theorem run_spec (haddr : Addressed digest world)
    (hdfs : ∀ g : DiGraph Directory, g.Acyclic → ∀ root, g.IsPostOrder root (dfsPostOrder g root))
    {calls : List (Call × Env)} (henv : ∀ c ∈ calls, c.2.Serves digest world far c.1.root)
    (h : Inv world near) :
    Inv world (run digest checks debug bfs dfsPostOrder near calls).2 ∧
      ∀ event ∈ (run digest checks debug bfs dfsPostOrder near calls).1, Inv world event.near ∧
        (far event.call.root ∨ event.near.lookup event.call.root = none → ∀ directories,
          FarAnswer digest world far event.call.root directories →
            event.reply.Matches directories) := by
  induction calls generalizing near with
  | nil => exact ⟨h, fun _ hevent => absurd hevent List.not_mem_nil⟩
  | cons c rest ih =>
    obtain ⟨call, env⟩ := c
    have hstep : StepWell digest world far near call.root
        (step digest checks debug bfs dfsPostOrder env near call) :=
      step_spec haddr hdfs call (henv _ List.mem_cons_self) h
    obtain ⟨hfinal, hevents⟩ := ih (fun c hc => henv c (List.mem_cons_of_mem _ hc)) hstep.inv
    refine ⟨hfinal, ?_⟩
    intro event hevent
    rcases List.mem_cons.mp hevent with rfl | hrest
    · exact ⟨h, hstep.answer⟩
    · exact hevents event hrest

/-- Near stays closed, whatever calls are made and wherever a put fails. The answers are those from
    afar for every digest that afar has, and for every digest that near does not have. -/
theorem cache_closed (digest : Directory → B3Digest) (checks debug : Bool)
    (bfs dfsPostOrder : DiGraph Directory → ℕ → List ℕ)
    (hdfs : ∀ g : DiGraph Directory, g.Acyclic → ∀ root, g.IsPostOrder root (dfsPostOrder g root))
    (world : DigestMap Directory) (haddr : Addressed digest world) (far : B3Digest → Prop)
    (near : DigestMap Directory) (hclosed : ClosedStore near)
    (hstored : ∀ k d, near.lookup k = some d → world.lookup k = some d)
    (calls : List (Call × Env)) (henv : ∀ c ∈ calls, c.2.Serves digest world far c.1.root) :
    ClosedStore (run digest checks debug bfs dfsPostOrder near calls).2 ∧
      ∀ event ∈ (run digest checks debug bfs dfsPostOrder near calls).1,
        ClosedStore event.near ∧
          (far event.call.root ∨ event.near.lookup event.call.root = none → ∀ directories,
            FarAnswer digest world far event.call.root directories →
              event.reply.Matches directories) := by
  obtain ⟨hfinal, hevents⟩ := run_spec haddr hdfs henv ⟨hclosed, hstored⟩
  refine ⟨hfinal.closed, ?_⟩
  intro event hevent
  obtain ⟨hinv, hanswer⟩ := hevents event hevent
  exact ⟨hinv.closed, hanswer⟩

-- ====================
-- Two runs
-- ====================

theorem addressed_b : Addressed fixtureDigest (storeOf DIRECTORY_B_DIGEST DIRECTORY_B) := by
  refine addressed_storeOf rfl rfl (by decide) ?_
  intro child hchild
  cases List.mem_singleton.mp hchild
  rfl

theorem closedStore_b : ClosedStore (storeOf DIRECTORY_B_DIGEST DIRECTORY_B) := by
  intro k d hd child hchild
  rcases lookup_storeOf.mp hd with ⟨rfl, rfl⟩ | ⟨-, rfl, rfl⟩
  · cases List.mem_singleton.mp hchild
    rfl
  · cases hchild

theorem closureOf_b : ClosureOf fixtureDigest (storeOf DIRECTORY_B_DIGEST DIRECTORY_B)
    DIRECTORY_B_DIGEST [DIRECTORY_B, DIRECTORY_A] := by
  obtain ⟨directories, htraverse, h⟩ :=
    rootToLeaves_near addressed_b ⟨closedStore_b, fun _ _ hd => hd⟩ DIRECTORY_B_DIGEST
  have heq : rootToLeaves (storeOf DIRECTORY_B_DIGEST DIRECTORY_B) DIRECTORY_B_DIGEST =
      some ([DIRECTORY_B, DIRECTORY_A], none) := rfl
  rw [heq, Option.some.injEq, Prod.mk.injEq] at htraverse
  rw [htraverse.1]
  rcases h with ⟨-, hnone⟩ | ⟨-, hclosure⟩
  · cases hnone
  · exact hclosure

/-- Afar has all of the fixtures. The second put fails. -/
def brokenOff : Env :=
  ⟨none, [DIRECTORY_B, DIRECTORY_A], false, fun k => if k = 1 then .refused else .stored⟩

theorem serves_b {env : Env} (hfar : env.far = [DIRECTORY_B, DIRECTORY_A]) :
    env.Serves fixtureDigest (storeOf DIRECTORY_B_DIGEST DIRECTORY_B) (fun _ => True)
      DIRECTORY_B_DIGEST where
  stored d hd := by
    rw [hfar, List.mem_pair] at hd
    rcases hd with rfl | rfl
    · rfl
    · rfl
  answer _ := by
    rw [hfar]
    exact .inl ⟨trivial, closureOf_b⟩

/-- A put that broke off leaves the empty directory, and the next call gets everything. -/
theorem cache_closed_broken_off :
    ∃ near, (run fixtureDigest true true DiGraph.postOrder DiGraph.postOrder ∅
        [(.getRecursive DIRECTORY_B_DIGEST, brokenOff),
          (.get DIRECTORY_B_DIGEST, { brokenOff with put := fun _ => .stored })]).2 = near ∧
      ClosedStore near ∧ near.lookup DIRECTORY_B_DIGEST = some DIRECTORY_B := by
  refine ⟨_, rfl, ?_, rfl⟩
  refine (cache_closed fixtureDigest true true DiGraph.postOrder DiGraph.postOrder
    (fun _ hacyclic root => DiGraph.isPostOrder_postOrder hacyclic root)
    (storeOf DIRECTORY_B_DIGEST DIRECTORY_B) addressed_b (fun _ => True) ∅
    (fun _ _ hd => nomatch hd) (fun _ _ hd => nomatch hd) _ ?_).1
  intro c hc
  rw [List.mem_pair] at hc
  rcases hc with rfl | rfl
  · exact serves_b rfl
  · exact serves_b rfl

/-- A directory that only near has is found, although afar does not have it. -/
theorem cache_closed_near_only :
    ∃ (digest : Directory → B3Digest) (world near : DigestMap Directory) (env : Env)
      (root : B3Digest), Addressed digest world ∧ ClosedStore near ∧
        (∀ k d, near.lookup k = some d → world.lookup k = some d) ∧
        env.Serves digest world (fun _ => False) root ∧
        FarAnswer digest world (fun _ => False) root [] ∧
        ¬(step digest true true DiGraph.postOrder DiGraph.postOrder env near (.get root)).1.Matches
          [] := by
  refine ⟨fixtureDigest, storeOf DIRECTORY_B_DIGEST DIRECTORY_B,
    storeOf DIRECTORY_B_DIGEST DIRECTORY_B, ⟨none, [], false, fun _ => .stored⟩,
    DIRECTORY_B_DIGEST, addressed_b, closedStore_b, fun _ _ hd => hd, ?_, ?_, ?_⟩
  · exact ⟨fun d hd => (nomatch hd), fun _ => .inr ⟨not_false, rfl⟩⟩
  · exact .inr ⟨not_false, rfl⟩
  · intro h
    cases h

end Cache

end Snix.Castore
