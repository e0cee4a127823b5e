import Snix.Lib.AsyncSink
import Snix.Lib.LittleEndian
import Snix.Lib.Prog

/-!
# Writing bytes through short writes

A write may take fewer bytes than it is offered. The loop here offers the rest again,
and writes all the bytes to every sink that is steady.

## Main definitions

- `AsyncSink.Steady` — a sink that becomes ready again, does not fail, and takes bytes
- `AsyncSink.writeAll` — the loop
- `bigEndian` — the bytes of a number, most significant first

## Main results

- `AsyncSink.returns_writeAll` — everything is written
-/

namespace Snix

/-- The lowest `w` bytes of a number, most significant first. -/
def bigEndian (w n : ℕ) : Bytes := (leBytes w n).reverse

@[simp] theorem length_bigEndian (w n : ℕ) : (bigEndian w n).length = w := by
  rw [bigEndian, List.length_reverse, length_leBytes]

theorem leValue_append (x y : Bytes) : leValue (x ++ y) = leValue x + 256 ^ x.length * leValue y := by
  induction x with
  | nil => simp [leValue]
  | cons b rest ih =>
    rw [List.cons_append, leValue, ih, leValue, List.length_cons, Nat.pow_succ, Nat.mul_add,
      Nat.mul_comm (256 ^ rest.length) 256, Nat.mul_assoc, Nat.add_assoc]

/-- Read the other way around, a number has its lowest byte on top. -/
theorem leValue_bigEndian_succ (w n : ℕ) :
    leValue (bigEndian (w + 1) n) = leValue (bigEndian w (n / 256)) + 256 ^ w * (n % 256) := by
  have hbyte : (UInt8.ofNat (n % 256)).toNat = n % 256 := by
    rw [UInt8.toNat_ofNat', Nat.mod_mod]
  rw [bigEndian, leBytes, List.reverse_cons, leValue_append, List.length_reverse, length_leBytes,
    leValue, hbyte]
  rfl

namespace AsyncSink

/-- A sink that becomes ready again, does not fail by itself, and takes something of
    what it is offered. -/
structure Steady (s : AsyncSink) : Prop where
  fair : ∀ i, ∃ j, s.answers (i + j) ≠ .pending
  faultless : ∀ i, s.answers i ≠ .fail
  takes : ∀ i, s.answers i ≠ .accept 0

theorem Steady.of_tick {s s' : AsyncSink} (h : s.Steady) (hans : s'.answers = s.tick.answers) :
    s'.Steady where
  fair i := by
    obtain ⟨j, hj⟩ := h.fair (i + 1)
    refine ⟨j, ?_⟩
    rw [hans]
    simpa only [tick, Nat.add_right_comm] using hj
  faultless i := by
    rw [hans]
    exact h.faultless (i + 1)
  takes i := by
    rw [hans]
    exact h.takes (i + 1)

/-- Everything a write to a steady sink can do. -/
theorem Steady.pollWrite_cases {s : AsyncSink} (h : s.Steady) (buf : Bytes) :
    (s.answers 0 = .pending ∧ s.pollWrite buf = (.pending, s.tick)) ∨
      ∃ n s', s.pollWrite buf = (.ready (.ok n), s') ∧ s'.written = s.written ++ buf.take n ∧
        s'.Steady ∧ n ≤ buf.length ∧ (buf ≠ [] → 0 < n) := by
  cases hans : s.answers 0 with
  | pending => exact .inl ⟨rfl, by simp only [pollWrite, hans]⟩
  | fail => exact absurd hans (h.faultless 0)
  | accept k =>
    have hk : k ≠ 0 := by
      rintro rfl
      exact h.takes 0 hans
    refine .inr ⟨min k buf.length, { s.tick with written := s.written ++ buf.take k },
      by simp only [pollWrite, hans], ?_, h.of_tick rfl, Nat.min_le_right _ _, fun hbuf => ?_⟩
    · by_cases hle : k ≤ buf.length
      · rw [Nat.min_eq_left hle]
      · rw [Nat.min_eq_right (by omega), List.take_length, List.take_of_length_le (by omega)]
    · have hpos := List.length_pos_iff.mpr hbuf
      omega

/-- Everything a poll without bytes can do on a steady sink. -/
theorem Steady.pollDone_cases {s : AsyncSink} (h : s.Steady) :
    (s.answers 0 = .pending ∧ s.pollDone = (.pending, s.tick)) ∨
      s.pollDone = (.ready (.ok ()), s.tick) := by
  cases hans : s.answers 0 with
  | pending => exact .inl ⟨rfl, by simp only [pollDone, hans]⟩
  | fail => exact absurd hans (h.faultless 0)
  | accept k => exact .inr (by simp only [pollDone, hans])

/-- Awaits that all bytes are written. -/
def writeAll : ℕ → Bytes → Prog WriteError AsyncSink Unit
  | 0, _ => .running
  | k + 1, buf => fun s =>
    if buf = [] then some (.ok ((), s))
    else match s.pollWrite buf with
      | (.pending, s') => (writeAll k buf).run s'
      | (.ready (.error e), _) => some (.error e)
      | (.ready (.ok 0), _) => some (.error .writeZero)
      | (.ready (.ok n), s') => (writeAll k (buf.drop n)).run s'

theorem run_writeAll_nil (k : ℕ) (s : AsyncSink) :
    (writeAll (k + 1) []).run s = some (.ok ((), s)) := by
  simp only [writeAll, Prog.run, if_true]

theorem run_writeAll_pending {k : ℕ} {buf : Bytes} {s s' : AsyncSink} (hbuf : buf ≠ [])
    (h : s.pollWrite buf = (.pending, s')) :
    (writeAll (k + 1) buf).run s = (writeAll k buf).run s' := by
  simp only [writeAll, if_neg hbuf, Prog.run, h]

theorem run_writeAll_ok {k n : ℕ} {buf : Bytes} {s s' : AsyncSink} (hbuf : buf ≠ [])
    (hn : 0 < n) (h : s.pollWrite buf = (.ready (.ok n), s')) :
    (writeAll (k + 1) buf).run s = (writeAll k (buf.drop n)).run s' := by
  obtain ⟨m, rfl⟩ := Nat.exists_eq_succ_of_ne_zero hn.ne'
  simp only [writeAll, if_neg hbuf, Prog.run, h]

/-- A steady sink gets all the bytes. -/
theorem returns_writeAll (buf : Bytes) {s : AsyncSink} (hs : s.Steady) :
    ∃ s', s'.Steady ∧ s'.written = s.written ++ buf ∧
      Returns (fun k => writeAll k buf) s (.ok ((), s')) := by
  induction hlen : buf.length using Nat.strong_induction_on generalizing s buf with
  | _ len ihlen =>
  subst hlen
  by_cases hbuf : buf = []
  · subst hbuf
    exact ⟨s, hs, (List.append_nil _).symm,
      (Returns.pure () s).succ fun k => run_writeAll_nil k s⟩
  have htaken : ∀ (s s₁ : AsyncSink) (n : ℕ), s.pollWrite buf = (.ready (.ok n), s₁) →
      s₁.written = s.written ++ buf.take n → s₁.Steady → n ≤ buf.length → 0 < n →
      ∃ s', s'.Steady ∧ s'.written = s.written ++ buf ∧
        Returns (fun k => writeAll k buf) s (.ok ((), s')) := by
    intro s s₁ n hpoll hwritten hs₁ hle hpos
    obtain ⟨s', hs', hwritten', hret⟩ :=
      ihlen (buf.drop n).length (by rw [List.length_drop]; omega) _ hs₁ rfl
    refine ⟨s', hs', ?_, hret.succ fun k => run_writeAll_ok hbuf hpos hpoll⟩
    rw [hwritten', hwritten, List.append_assoc, List.take_append_drop]
  -- by induction on the number of polls until the sink is ready
  obtain ⟨j, hj⟩ := hs.fair 0
  rw [Nat.zero_add] at hj
  induction j generalizing s with
  | zero =>
    rcases hs.pollWrite_cases buf with ⟨hpending, -⟩ | ⟨n, s₁, hpoll, hwritten, hs₁, hle, hpos⟩
    · exact absurd hpending hj
    · exact htaken s s₁ n hpoll hwritten hs₁ hle (hpos hbuf)
  | succ j ihj =>
    rcases hs.pollWrite_cases buf with ⟨-, hpoll⟩ | ⟨n, s₁, hpoll, hwritten, hs₁, hle, hpos⟩
    · obtain ⟨s', hs', hwritten, hret⟩ := ihj (hs.of_tick rfl) hj
      exact ⟨s', hs', hwritten, hret.succ fun k => run_writeAll_pending hbuf hpoll⟩
    · exact htaken s s₁ n hpoll hwritten hs₁ hle (hpos hbuf)

end AsyncSink

end Snix
