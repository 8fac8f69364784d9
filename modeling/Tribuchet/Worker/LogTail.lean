import Tribuchet.Base.Bytes
import Tribuchet.Base.Runs

/-! The tailer of a build's log (`worker/logtail.rs`) beside the builder that writes the log. Tailers come one
after another, each from the offset that it finds on disk. -/

namespace Tribuchet.LogTail

open ByteStrings Runs List

inductive Pc
  | read
  | emit (chunk : Bytes)
  | persist
  /-- `drain` has read the end of the file, and `done` is asked next -/
  | poll

structure LogCursor where
  sent : ℕ
  pc : Pc

structure State where
  /-- `build.log` -/
  log : Bytes
  /-- `log.offset`, if it is there -/
  offset : Option ℕ
  cursor : Option LogCursor
  /-- the chunks that `emit` accepted, with where in the log they were read -/
  accepted : List (ℕ × Bytes)

inductive Action
  | write (data : Bytes)
  | open
  | read (n : ℕ)
  | emit (ok : Bool)
  | persist (ok : Bool)
  | done (b : Bool)
  /-- a read fails, or the process stops -/
  | stop

def step (s : State) (a : Action) : Option State :=
  match a, s.cursor with
  | .write data, _ => some { s with log := s.log ++ data }
  | .open, none => some { s with cursor := some ⟨s.offset.getD 0, .read⟩ }
  | .read n, some ⟨sent, .read⟩ =>
    -- the file stands at `sent`: what was read is counted, or the tailer has ended
    let chunk := (s.log.drop sent).take (min (n + 1) 8192)
    some { s with cursor := some ⟨sent, if chunk = [] then .poll else .emit chunk⟩ }
  | .emit true, some ⟨sent, .emit chunk⟩ => some { s with
      cursor := some ⟨sent + chunk.length, .persist⟩, accepted := s.accepted ++ [(sent, chunk)] }
  | .emit false, some ⟨_, .emit _⟩ => some { s with cursor := none }
  | .persist ok, some ⟨sent, .persist⟩ => some { s with
      offset := if ok then some sent else s.offset, cursor := some ⟨sent, .read⟩ }
  | .done b, some ⟨sent, .poll⟩ => some { s with cursor := if b then none else some ⟨sent, .read⟩ }
  | .stop, _ => some { s with cursor := none }
  | _, _ => none

def system : System State Action where
  init s := s = ⟨[], none, none, []⟩
  step := step

/-- Every byte before `n` is in a chunk that was accepted. -/
def Reached (accepted : List (ℕ × Bytes)) (n : ℕ) : Prop := ∀ i < n, ∃ e ∈ accepted, e.1 ≤ i ∧ i < e.1 + e.2.length

structure Inv (s : State) : Prop where
  chunks : ∀ e ∈ s.accepted, e.2 <+: s.log.drop e.1
  offset : Reached s.accepted (s.offset.getD 0)
  sent : ∀ c ∈ s.cursor, Reached s.accepted c.sent
  inHand : ∀ sent chunk, s.cursor = some ⟨sent, .emit chunk⟩ → chunk <+: s.log.drop sent

variable {s s' : State} {a : Action}

theorem Inv.write (h : Inv s) (data : Bytes) : Inv { s with log := s.log ++ data } := by
  have hmore : ∀ n, s.log.drop n <+: (s.log ++ data).drop n := fun n => by simp [drop_append]
  exact ⟨fun e he => (h.chunks e he).trans (hmore _), h.offset, h.sent,
    fun sent chunk hc => (h.inHand sent chunk hc).trans (hmore _)⟩

theorem Inv.accept (h : Inv s) {sent : ℕ} {chunk : Bytes} (hc : s.cursor = some ⟨sent, .emit chunk⟩) : Inv { s with
    cursor := some ⟨sent + chunk.length, .persist⟩, accepted := s.accepted ++ [(sent, chunk)] } := by
  have hmore : ∀ n, Reached s.accepted n → Reached (s.accepted ++ [(sent, chunk)]) n := by
    intro n hn i hi
    obtain ⟨e, he, hle⟩ := hn i hi
    exact ⟨e, mem_append_left _ he, hle⟩
  refine ⟨fun e he => ?_, hmore _ h.offset, ?_, by simp⟩
  · rcases mem_append.mp he with he | he
    · exact h.chunks e he
    · rw [mem_singleton.mp he]
      exact h.inHand sent chunk hc
  · rintro _ ⟨⟩ i hi
    by_cases hlt : i < sent
    · exact hmore _ (h.sent _ hc) i hlt
    · exact ⟨_, mem_append_right _ (mem_singleton_self _), not_lt.mp hlt, hi⟩

theorem Inv.next (h : Inv s) (hs : step s a = some s') : Inv s' := by
  unfold step at hs
  split at hs <;> cases hs
  · exact h.write _
  · exact ⟨h.chunks, h.offset, by simpa using h.offset, by simp⟩
  · rename_i hc
    refine ⟨h.chunks, h.offset, by simpa using h.sent _ hc, fun _ chunk he => ?_⟩
    split_ifs at he <;> cases he
    exact take_prefix ..
  · rename_i hc
    exact h.accept hc
  · exact ⟨h.chunks, h.offset, by simp, by simp⟩
  · rename_i ok sent hc
    refine ⟨h.chunks, ?_, by simpa using h.sent _ hc, by simp⟩
    cases ok
    · exact h.offset
    · exact h.sent _ hc
  · rename_i b sent hc
    have hsent := h.sent _ hc
    refine ⟨h.chunks, h.offset, ?_, ?_⟩ <;> cases b <;> simp [hsent]
  · exact ⟨h.chunks, h.offset, by simp, by simp⟩

theorem inv_of_reachable (h : system.Reachable s) : Inv s := by
  refine h.invariant ?_ fun _ _ _ hi hs => hi.next hs
  rintro _ rfl
  constructor <;> simp [Reached]

/-- Whatever is rejected, fails or stops: an accepted chunk is what the log has where it was read, and nothing before
the offset on disk or the count of a running tailer was not accepted. A read that finds the end of the file
finds all of the log accepted; what is written after it, before `done` is asked, may be missed. -/
theorem log_without_gaps (h : system.Reachable s) :
    (∀ e ∈ s.accepted, e.2 <+: s.log.drop e.1) ∧ Reached s.accepted (s.offset.getD 0) ∧
    (∀ c ∈ s.cursor, Reached s.accepted c.sent) ∧
    ∀ n s' c, step s (.read n) = some s' → s'.cursor = some c → c.pc = .poll → Reached s'.accepted s'.log.length := by
  have hinv := inv_of_reachable h
  refine ⟨hinv.chunks, hinv.offset, hinv.sent, fun n s' c hs hc hpc i hi => ?_⟩
  unfold step at hs
  split at hs <;> cases hs <;> try contradiction
  rename_i hcur
  cases hc
  split_ifs at hpc with hend
  have hlen := congrArg length hend
  rw [length_take, length_drop, length_nil] at hlen
  exact hinv.sent _ hcur i (lt_of_lt_of_le hi (by simp only; omega))

theorem log_without_gaps_resumed : ∃ s, system.Reachable s ∧ s.offset = some 2 ∧ Reached s.accepted 2 := by
  obtain ⟨s, hr, hs⟩ := system.exists_reachable_of_exec ⟨[], none, none, []⟩
    [.write [1, 2, 3], .open, .read 1, .emit true, .stop, .open, .read 1, .emit true, .persist true, .read 0, .emit false]
    (·.offset = some 2) rfl (by decide)
  have hreached := (log_without_gaps hr).2.1
  rw [hs] at hreached
  exact ⟨s, hr, hs, hreached⟩

end Tribuchet.LogTail
