import Snix.Lib.Prog
import Snix.Lib.AsyncStream

/-!
# Programs that read

A program asks a reader for at most so many bytes, and goes on with what it gets. The
reader is polled; it hands out what it has in chunks of its own choice. What a program
does is therefore said of the bytes that are there and of some way to cut them up.

## Main definitions

- `Reading` — programs that read
- `Reading.exec` — runs a program on a reader
- `Reading.Reads` — what a program makes of bytes, whatever the chunks

## Main results

- `returns_ready` — polling ends if every poll takes bytes or is not ready yet
- `Reading.returns_exec` — a program ends on a reader that hands out bytes
-/

namespace Snix

variable {α β ε ρ : Type}

/-- Polls until there is a result. -/
def ready (poll : ρ → Poll β × ρ) : ℕ → Prog ε ρ β
  | 0 => .running
  | k + 1 => fun r =>
    match poll r with
    | (.pending, r) => (ready poll k).run r
    | (.ready res, r) => some (.ok (res, r))

theorem run_ready_pending {poll : ρ → Poll β × ρ} {r r' : ρ} (h : poll r = (.pending, r')) (k : ℕ) :
    (ready poll (k + 1) : Prog ε ρ β).run r = (ready poll k).run r' := by
  show (match poll r with | (.pending, r) => _ | (.ready res, r) => _) = _
  rw [h]

theorem returns_ready_now {poll : ρ → Poll β × ρ} {r r' : ρ} {res : β}
    (h : poll r = (.ready res, r')) :
    Returns (fun k => (ready poll k : Prog ε ρ β)) r (.ok (res, r')) := by
  refine ⟨1, fun k hk => ?_⟩
  obtain ⟨k, rfl⟩ := Nat.exists_eq_add_of_le' hk
  show (match poll r with | (.pending, r) => _ | (.ready res, r) => _) = _
  rw [h]

theorem returns_ready {poll : ρ → Poll β × ρ} (stream : ρ → AsyncStream) {r₀ : AsyncStream}
    {I : ρ → Prop} {Q : β → ρ → Prop} (hfair : r₀.Fair) (hlater : ∀ r, I r → (stream r).Later r₀)
    (hpoll : ∀ r, I r → (∃ r', poll r = (.pending, r') ∧ I r' ∧ Stalled (stream r) (stream r')) ∨
      ∃ res r', poll r = (.ready res, r') ∧ Q res r') {r : ρ} (hr : I r) :
    ∃ res r', Q res r' ∧ Returns (fun k => (ready poll k : Prog ε ρ β)) r (.ok (res, r')) := by
  refine stalled_induction (P := fun s => ∀ r, stream r = s → I r → ∃ res r', Q res r' ∧
    Returns (fun k => (ready poll k : Prog ε ρ β)) r (.ok (res, r'))) hfair ?_ (hlater r hr) r rfl hr
  rintro s - ih r rfl hr
  rcases hpoll r hr with ⟨r', hpending, hr', hstalled⟩ | ⟨res, r', hready, hQ⟩
  · obtain ⟨res, r'', hQ, hret⟩ := ih _ hstalled (hlater r' hr') r' rfl hr'
    exact ⟨res, r'', hQ, hret.succ (run_ready_pending hpending)⟩
  · exact ⟨res, r', hQ, returns_ready_now hready⟩

/-- A program that asks for at most `n` bytes, until it is done. -/
inductive Reading (α : Type) where
  | done (a : α)
  | read (n : ℕ) (next : Except IoError Bytes → Reading α)

namespace Reading

/-- Runs a program on a reader that is polled for at most so many bytes. -/
def exec (poll : ℕ → ρ → Poll (Except IoError Bytes) × ρ) : Reading α → ℕ → Prog ε ρ α
  | .done a, _ => pure a
  | .read n next, k => do
    let res ← ready (poll n) k
    (next res).exec poll k

/-- Given `data`, the program may end with a result, and these bytes left. -/
inductive Reads : Reading α → Bytes → α → Bytes → Prop
  | done (a : α) (data : Bytes) : Reads (.done a) data a data
  | chunk {n : ℕ} {next : Except IoError Bytes → Reading α} {chunk data rest : Bytes} {a : α}
      (hne : chunk ≠ []) (hlen : chunk.length ≤ n) (h : Reads (next (.ok chunk)) data a rest) :
      Reads (.read n next) (chunk ++ data) a rest
  | nothing {n : ℕ} {next : Except IoError Bytes → Reading α} {data rest : Bytes} {a : α}
      (hnil : n = 0 ∨ data = []) (h : Reads (next (.ok [])) data a rest) :
      Reads (.read n next) data a rest

theorem Reads.suffix {p : Reading α} {data rest : Bytes} {a : α} (h : p.Reads data a rest) :
    rest <:+ data := by
  induction h with
  | done a data => exact List.suffix_rfl
  | chunk hne hlen h ih => exact ih.trans (List.suffix_append _ _)
  | nothing hnil h ih => exact ih

/-- A read of at most `n` bytes gives some of `data`, or nothing at its end. -/
def HandsOut (I : Bytes → ρ → Prop) (n : ℕ) (data : Bytes) (res : Except IoError Bytes) (r : ρ) :
    Prop :=
  (∃ chunk data', res = .ok chunk ∧ chunk ≠ [] ∧ chunk.length ≤ n ∧ data = chunk ++ data' ∧
    I data' r) ∨ res = .ok [] ∧ (n = 0 ∨ data = []) ∧ I data r

theorem returns_exec {poll : ℕ → ρ → Poll (Except IoError Bytes) × ρ} {I : Bytes → ρ → Prop}
    (hpoll : ∀ n data r, I data r → ∃ res r', HandsOut I n data res r' ∧
      Returns (fun k => (ready (poll n) k : Prog ε ρ (Except IoError Bytes))) r (.ok (res, r')))
    (p : Reading α) {data : Bytes} {r : ρ} (hr : I data r) :
    ∃ a rest r', p.Reads data a rest ∧ I rest r' ∧
      Returns (fun k => (p.exec poll k : Prog ε ρ α)) r (.ok (a, r')) := by
  induction p generalizing data r with
  | done a => exact ⟨a, data, r, .done a data, hr, .pure a r⟩
  | read n next ih =>
    obtain ⟨res, r', hout, hready⟩ := hpoll n data r hr
    rcases hout with ⟨chunk, data', rfl, hne, hlen, rfl, hr'⟩ | ⟨rfl, hnil, hr'⟩
    · obtain ⟨a, rest, r'', hreads, hr'', hret⟩ := ih (.ok chunk) hr'
      exact ⟨a, rest, r'', .chunk hne hlen hreads, hr'', hready.bind hret⟩
    · obtain ⟨a, rest, r'', hreads, hr'', hret⟩ := ih (.ok []) hr'
      exact ⟨a, rest, r'', .nothing hnil hreads, hr'', hready.bind hret⟩

end Reading

end Snix
