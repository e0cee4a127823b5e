import Snix.Castore.Import.IngestEntries

/-!
# Streams without a bug in the producer

What `ingestEntries` asserts holds if every path is there once, the entries of a
directory come before it, every entry is in a directory that is there as well, and the
root is a directory and the last entry. Whatever else is in the entries, whatever the
directories are put into: the only panics left are those of a size that does not fit
into 64 bits, and of a putter that returns another root than the one it was given.

## Main definitions

- `ValidStream`
- `Pending` — the directories that were begun will arrive

## Main results

- `step_pending` — what one entry does
- `ValidStream.panics`
-/

namespace Snix.Castore

/-- What `ingestEntries` expects of its entries. -/
structure ValidStream (l : List IngestionEntry) : Prop where
  nodup : (l.map IngestionEntry.path).Nodup
  childrenFirst : ChildrenFirst l
  parent : ∀ e ∈ l, (∃ name, e.path = [name]) ∨
    ∃ q, q ≠ [] ∧ e.path.parent = some q ∧ IngestionEntry.dir q ∈ l
  root : ∃ name, l.getLast? = some (.dir [name]) ∧
    ∀ e ∈ l, e.path.length = 1 → e = .dir [name]

/-- The directories that were begun will arrive. -/
def Pending {σ : Type} (rest : List IngestionEntry) (s : Ingest σ) : Prop :=
  ∀ path, s.directories.lookup path ≠ none → IngestionEntry.dir path ∈ rest

section

variable {digest : Directory → B3Digest} {checks debug : Bool} {σ ε : Type} {P : DirectoryPutter σ}
  {entry : IngestionEntry} {done rest l : List IngestionEntry} {s : Ingest σ}

/-- The error is no panic but that of a size that does not fit. -/
def OnlyOverflows (e : IngestionError ε) : Prop :=
  ∀ m, e = .panic m → m = "attempt to add with overflow"

theorem Pending.of_ne (hs : Pending (entry :: rest) s) (hne : ∀ path, entry ≠ .dir path) :
    Pending rest s := by
  intro path hpath
  rcases List.mem_cons.mp (hs path hpath) with heq | hmem
  · exact absurd heq.symm (hne path)
  · exact hmem

/-- A directory that arrives is no longer pending. -/
theorem finishDirectory_pending {path : PathBuf} (hs : Pending (.dir path :: rest) s) :
    (∃ k n s', Ingest.finishDirectory (ε := ε) digest checks P path s = .ok (.directory k n, s') ∧
      Pending rest s') ∨
    ∃ e : IngestionError ε, Ingest.finishDirectory digest checks P path s = .error e ∧
      OnlyOverflows e := by
  have herase : ∀ s' : Ingest σ, s'.directories = s.directories.erase path → Pending rest s' := by
    intro s' hs' q hq
    rw [hs', lookup_erase] at hq
    split_ifs at hq with heq
    · exact absurd rfl hq
    · rcases List.mem_cons.mp (hs q hq) with hdir | hmem
      · cases hdir
        exact absurd rfl heq
      · exact hmem
  unfold Ingest.finishDirectory
  dsimp only
  cases hsize : ((s.directories.lookup path).getD .new).size checks with
  | none =>
    simp only
    refine .inr ⟨_, rfl, ?_⟩
    intro m hm
    cases hm
    rfl
  | some size =>
    dsimp only
    split_ifs with hsent
    · refine .inl ⟨_, _, _, rfl, ?_⟩
      exact herase _ rfl
    · cases hput : P.put (s.putter.getD P.start) ((s.directories.lookup path).getD .new) with
      | error e =>
        simp only
        refine .inr ⟨_, rfl, ?_⟩
        intro m hm
        cases hm
      | ok putter =>
        simp only
        refine .inl ⟨_, _, _, rfl, ?_⟩
        exact herase _ rfl

/-- What the node of an entry leaves pending. -/
theorem nodeOf_pending (hs : Pending (entry :: rest) s) :
    (∃ node s', Ingest.nodeOf (ε := ε) digest checks P entry s = .ok (node, s') ∧ Pending rest s' ∧
      (entry.path.length = 1 → (∃ path, entry = .dir path) → ∃ k n, node = .directory k n)) ∨
    ∃ e : IngestionError ε, Ingest.nodeOf digest checks P entry s = .error e ∧ OnlyOverflows e := by
  cases entry with
  | dir path =>
    obtain ⟨k, n, s', hok, hs'⟩ | herror :=
      @finishDirectory_pending digest checks σ ε P _ s _ hs
    · exact .inl ⟨_, _, hok, hs', fun _ _ => ⟨k, n, rfl⟩⟩
    · exact .inr herror
  | symlink path target =>
    have hrest : Pending rest s := by
      apply hs.of_ne
      intro q hq
      cases hq
    unfold Ingest.nodeOf
    dsimp only
    cases SymlinkTarget.tryFrom target with
    | error e =>
      refine .inr ⟨_, rfl, ?_⟩
      intro m hm
      cases hm
    | ok target =>
      refine .inl ⟨_, _, rfl, hrest, ?_⟩
      rintro - ⟨q, hq⟩
      cases hq
  | regular path size executable k =>
    refine .inl ⟨_, _, rfl, hs.of_ne ?_, ?_⟩
    · intro q hq
      cases hq
    · rintro - ⟨q, hq⟩
      cases hq

/-- A directory with something in it will arrive. -/
theorem ValidStream.parent_mem_rest (h : ValidStream (done ++ entry :: rest)) {q : PathBuf}
    (hq : entry.path.parent = some q) (hne : q ≠ []) : IngestionEntry.dir q ∈ rest := by
  have hmem : IngestionEntry.dir q ∈ done ++ entry :: rest := by
    rcases h.parent entry (List.mem_append_right _ List.mem_cons_self) with ⟨name, hname⟩ |
      ⟨q', -, hq', hmem⟩
    · rw [hname] at hq
      cases hq
      exact absurd rfl hne
    · cases hq.symm.trans hq'
      exact hmem
  rcases List.mem_append.mp hmem with hdone | hmem
  · have hpairwise := (List.pairwise_append.mp h.childrenFirst).2.2
    exact absurd hq (hpairwise _ hdone entry List.mem_cons_self)
  · rcases List.mem_cons.mp hmem with heq | hmem
    · rw [← heq] at hq
      have hlen := congrArg (Option.map List.length) hq
      unfold PathBuf.parent at hlen
      rw [show (IngestionEntry.dir q).path = q from rfl, if_neg hne, Option.map_some,
        Option.map_some, Option.some.injEq, List.length_dropLast] at hlen
      have hpos := List.length_pos_iff.mpr hne
      omega
    · exact hmem

/-- Nothing comes after an entry whose path has one component. -/
theorem ValidStream.rest_eq_nil (h : ValidStream (done ++ entry :: rest))
    (hlength : entry.path.length = 1) : rest = [] ∧ ∃ path, entry = .dir path := by
  obtain ⟨name, hlast, hroot⟩ := h.root
  have hentry := hroot entry (List.mem_append_right _ List.mem_cons_self) hlength
  refine ⟨?_, _, hentry⟩
  rcases List.eq_nil_or_concat rest with hnil | ⟨rest', last, rfl⟩
  · exact hnil
  · exfalso
    rw [List.concat_eq_append, List.getLast?_append_of_ne_nil _ (List.cons_ne_nil _ _),
      List.getLast?_cons, List.getLast?_concat, Option.getD_some, Option.some.injEq] at hlast
    have hnodup := h.nodup
    rw [List.map_append, List.nodup_append', List.map_cons, List.nodup_cons] at hnodup
    apply hnodup.2.1.1
    rw [List.concat_eq_append, hlast, hentry]
    simp

/-- What one entry does: it is the root, or leaves the directories that will arrive pending. -/
theorem step_pending (h : ValidStream (done ++ entry :: rest)) (hs : Pending (entry :: rest) s) :
    (∃ s', Ingest.step (ε := ε) digest checks P entry s = .ok (none, s') ∧ Pending rest s') ∨
    (∃ k n s', Ingest.step (ε := ε) digest checks P entry s = .ok (some (.directory k n), s') ∧
      rest = [] ∧ Pending [] s') ∨
    ∃ e : IngestionError ε, Ingest.step digest checks P entry s = .error e ∧ OnlyOverflows e := by
  have hne : entry.path ≠ [] := by
    rcases h.parent entry (List.mem_append_right _ List.mem_cons_self) with ⟨name, hname⟩ |
      ⟨q, -, hq, -⟩
    · rw [hname]
      exact List.cons_ne_nil _ _
    · intro hnil
      rw [hnil] at hq
      cases hq
  obtain ⟨q, name, hpath⟩ := List.eq_nil_or_concat entry.path |>.resolve_left hne
  rw [List.concat_eq_append] at hpath
  unfold Ingest.step
  obtain ⟨node, s', hnode, hs', hdir⟩ | ⟨e, hnode, honly⟩ :=
    @nodeOf_pending digest checks σ ε P _ _ s hs
  · rw [hnode, hpath]
    simp only [bind, Except.bind, PathBuf.parent_concat]
    by_cases hq : q = []
    · rw [if_pos hq]
      have hlength : entry.path.length = 1 := by
        rw [hpath, hq]
        rfl
      obtain ⟨hnil, hisDir⟩ := h.rest_eq_nil hlength
      obtain ⟨k, n, rfl⟩ := hdir hlength hisDir
      refine .inr (.inl ⟨k, n, s', rfl, hnil, ?_⟩)
      rw [← hnil]
      exact hs'
    · rw [if_neg hq]
      have hparent : entry.path.parent = some q := by
        rw [hpath, PathBuf.parent_concat]
      have hmem := h.parent_mem_rest hparent hq
      unfold Ingest.record
      rw [PathBuf.fileName_concat]
      dsimp only
      cases hadd : ((s'.directories.lookup q).getD .new).add checks name node with
      | none =>
        refine .inr (.inr ⟨_, rfl, ?_⟩)
        intro m hm
        cases hm
        rfl
      | some result =>
        cases result with
        | error e =>
          refine .inr (.inr ⟨_, rfl, ?_⟩)
          intro m hm
          cases hm
        | ok directory =>
          refine .inl ⟨_, rfl, ?_⟩
          intro path hlookup
          by_cases heq : path = q
          · rw [heq]
            exact hmem
          · apply hs' path
            rw [← AList.lookup_insert_ne heq]
            exact hlookup
  · rw [hnode]
    exact .inr (.inr ⟨e, rfl, honly⟩)

theorem loop_pending (h : ValidStream (done ++ rest)) (hs : Pending rest s) :
    (∃ k n s', Ingest.loop digest checks P (rest.map fun e => (.ok e : Except ε _)) s =
      .ok (.directory k n, [], s') ∧ Pending [] s') ∨
    ∃ e : IngestionError ε,
      Ingest.loop digest checks P (rest.map fun e => (.ok e : Except ε _)) s = .error e ∧
        OnlyOverflows e := by
  induction rest generalizing done s with
  | nil =>
    refine .inr ⟨_, rfl, ?_⟩
    intro m hm
    cases hm
  | cons entry rest ih =>
    rw [List.map_cons]
    unfold Ingest.loop
    obtain ⟨s', hstep, hs'⟩ | ⟨k, n, s', hstep, rfl, hs'⟩ | ⟨e, hstep, honly⟩ :=
      @step_pending digest checks σ ε P _ _ _ s h hs
    · rw [hstep]
      rw [List.append_cons] at h
      exact ih h hs'
    · rw [hstep]
      exact .inl ⟨k, n, s', rfl, hs'⟩
    · rw [hstep]
      exact .inr ⟨e, rfl, honly⟩

/-- The panics that are left. -/
theorem ValidStream.panics (h : ValidStream l) {m : String}
    (hpanic : ingestEntries (ε := ε) digest checks debug P (l.map .ok) = .error (.panic m)) :
    m = "attempt to add with overflow" ∨ m = "assertion `left == right` failed" := by
  have hstart : Pending l (Ingest.start : Ingest σ) := by
    intro path hpath
    exact absurd rfl hpath
  unfold ingestEntries at hpanic
  obtain ⟨k, n, s, hloop, hs⟩ | ⟨e, hloop, honly⟩ :=
    @loop_pending digest checks σ ε P [] l .start h hstart
  · have hnil : s.directories.entries = [] := by
      apply entries_eq_nil_of_lookup
      intro path
      by_contra hpath
      exact List.not_mem_nil (hs path hpath)
    rw [hloop] at hpanic
    simp only [List.length_nil, ne_eq, not_true_eq_false, if_false, hnil] at hpanic
    right
    unfold closePutter at hpanic
    cases hputter : s.putter with
    | none =>
      rw [hputter] at hpanic
      cases hpanic
    | some putter =>
      rw [hputter] at hpanic
      dsimp only at hpanic
      cases hclose : P.close putter with
      | error e =>
        rw [hclose] at hpanic
        cases hpanic
      | ok closed =>
        rw [hclose] at hpanic
        dsimp only at hpanic
        split_ifs at hpanic
        cases hpanic
        rfl
  · rw [hloop] at hpanic
    cases hpanic
    exact .inl (honly m rfl)

end

end Snix.Castore
