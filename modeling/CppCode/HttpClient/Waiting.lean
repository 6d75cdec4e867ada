import CppCode.HttpClient.Client
import CppCode.Library.Run

/-!
# Waiting for a reply

A process that calls `HttpClient::SendReq` any number of times, with any events on the connection
of each call. `s_exit_flag` is shared by all calls and never reset, so it is the first call alone
that waits: `leaves_iff` says that a call leaves its polling loop after an event of its own
connection exactly when it is the first one.
-/

namespace CppCode.HttpClient

open Library

/-- Where the process is. -/
inductive Phase
  /-- Outside of `SendReq`. -/
  | idle
  /-- At the test of the polling loop. -/
  | testing
  /-- In the `mg_mgr_poll` of the loop. -/
  | polling
  /-- In `mg_mgr_free`, whose last poll and closing of the connection deliver events. -/
  | freeing
  deriving DecidableEq, Repr

/-- The state of the process. -/
structure Process where
  /-- Static variables. -/
  static : Static := {}
  /-- Position. -/
  phase : Phase := .idle
  /-- Number of calls of `SendReq` so far. -/
  calls : Nat := 0
  /-- Events of the connection of the current call, oldest first. -/
  own : List Event := []
  deriving DecidableEq, Repr

/-- One step of the process. -/
inductive Action
  /-- `SendReq` is called and has its connection. -/
  | sendReq
  /-- The loop tests `s_exit_flag`. -/
  | test
  /-- An event on the connection of the call. -/
  | event (event : Event)
  /-- `mg_mgr_poll` returns. -/
  | pollEnds
  /-- `mg_mgr_free` and `SendReq` return. -/
  | returns
  deriving DecidableEq, Repr

/-- The effect of an action, `none` when it is not enabled. -/
def step (s : Process) (action : Action) : Option Process :=
  match action, s.phase with
  | .sendReq, .idle => some { s with phase := .testing, calls := s.calls + 1, own := [] }
  | .test, .testing =>
    some { s with phase := if s.static.exitFlag = 0 then .polling else .freeing }
  | .event event, .polling | .event event, .freeing =>
    some { s with static := onHttpEvent s.static event, own := s.own ++ [event] }
  | .pollEnds, .polling => some { s with phase := .testing }
  | .returns, .freeing => some { s with phase := .idle }
  | _, _ => none

/-- A run of the process from its start. -/
def Reaches (actions : List Action) (s : Process) : Prop := run step {} actions = some s

/-- The current call leaves its polling loop: it is at the test and the flag is set. -/
def Process.Leaves (s : Process) : Prop := s.phase = .testing ∧ s.static.exitFlag ≠ 0

/-- The connection of the current call has delivered an event that ends the call. -/
def Process.Ended (s : Process) : Prop := ∃ event ∈ s.own, event.Ends

/-- What the flag says about the calls. -/
structure Flagged (s : Process) : Prop where
  /-- Before the first call it is not set. -/
  unused : s.calls = 0 → s.phase = .idle ∧ s.static.exitFlag = 0
  /-- While the first call waits, it tells whether the call has ended. -/
  first : s.calls = 1 → s.phase = .testing ∨ s.phase = .polling →
    (s.static.exitFlag ≠ 0 ↔ s.Ended)
  /-- Once a call has left its loop it is set, and stays so. -/
  left : s.calls = 1 ∧ (s.phase = .freeing ∨ s.phase = .idle) ∨ 2 ≤ s.calls →
    s.static.exitFlag ≠ 0
  /-- A later call does not poll and has seen nothing at its test. -/
  later : 2 ≤ s.calls → s.phase ≠ .polling ∧ (s.phase = .testing → s.own = [])

/-- A further event ends the call or leaves it as it was. -/
theorem ended_append {s : Process} {event : Event} :
    (∃ seen ∈ s.own ++ [event], seen.Ends) ↔ s.Ended ∨ event.Ends := by
  simp [Process.Ended, or_and_right, exists_or]

/-- An event of the current call keeps what the flag says. -/
theorem flagged_event {s : Process} (flagged : Flagged s) (event : Event)
    (inside : s.phase = .polling ∨ s.phase = .freeing) :
    Flagged { s with static := onHttpEvent s.static event, own := s.own ++ [event] } where
  unused none := by
    have idle := (flagged.unused none).1
    rcases inside with polling | freeing <;> simp_all
  first once waiting := by
    refine (exitFlag_onHttpEvent s.static event).trans (Iff.trans ?_ ended_append.symm)
    rw [flagged.first once waiting]
  left done := (exitFlag_onHttpEvent s.static event).mpr (.inl (flagged.left done))
  later many := by
    refine ⟨(flagged.later many).1, fun testing => ?_⟩
    rcases inside with polling | freeing <;> simp_all

/-- Every step keeps what the flag says. -/
theorem flagged_step {s next : Process} {action : Action} (flagged : Flagged s)
    (taken : step s action = some next) : Flagged next := by
  unfold step at taken
  split at taken
  · rename_i idle
    obtain rfl := Option.some.inj taken
    refine ⟨by simp, fun once _ => ?_, fun done => ?_, fun _ => ⟨by simp, fun _ => rfl⟩⟩
    · have unset := (flagged.unused (Nat.succ.inj once)).2
      simp [unset, Process.Ended]
    · by_cases again : s.calls = 1
      · exact flagged.left (.inl ⟨again, .inr idle⟩)
      · refine flagged.left (.inr ?_)
        rcases done with ⟨-, impossible⟩ | many
        · simp at impossible
        · dsimp only at many
          omega
  · rename_i testing
    obtain rfl := Option.some.inj taken
    refine ⟨fun none => ?_, fun once _ => flagged.first once (.inl testing), fun done => ?_,
      fun many => ?_⟩
    · exact absurd ((flagged.unused none).1.symm.trans testing) (by simp)
    · rcases done with ⟨-, freed⟩ | many
      · intro unset
        have unset : s.static.exitFlag = 0 := unset
        simp [unset] at freed
      · exact flagged.left (.inr many)
    · simp [flagged.left (.inr many)]
  · rename_i polling
    obtain rfl := Option.some.inj taken
    exact flagged_event flagged _ (.inl polling)
  · rename_i freeing
    obtain rfl := Option.some.inj taken
    exact flagged_event flagged _ (.inr freeing)
  · rename_i polling
    obtain rfl := Option.some.inj taken
    refine ⟨fun none => ?_, fun once _ => flagged.first once (.inr polling), fun done => ?_,
      fun many => absurd polling (flagged.later many).1⟩
    · exact absurd ((flagged.unused none).1.symm.trans polling) (by simp)
    · rcases done with ⟨-, impossible⟩ | many
      · simp at impossible
      · exact flagged.left (.inr many)
  · rename_i freeing
    obtain rfl := Option.some.inj taken
    refine ⟨fun none => ?_, fun _ waiting => by simp at waiting, fun done => ?_, fun _ => by simp⟩
    · exact absurd ((flagged.unused none).1.symm.trans freeing) (by simp)
    · exact flagged.left (done.imp (fun once => ⟨once.1, .inl freeing⟩) id)
  · contradiction

/-- The flag says so in every run. -/
theorem flagged_run {s : Process} {actions : List Action} (reached : Reaches actions s) :
    Flagged s :=
  run_invariant (fun _ _ _ => flagged_step) ⟨by simp, by simp, by simp, by simp⟩ reached

/-- A call that leaves its polling loop does so after its own connection has delivered a reply, a
failed connect or a close exactly when it is the first call of the process; a later call leaves
before its connection has delivered any event. -/
theorem leaves_iff {s : Process} {actions : List Action} (reached : Reaches actions s)
    (leaves : s.Leaves) : (s.Ended ↔ s.calls = 1) ∧ (s.calls ≠ 1 → s.own = []) := by
  have flagged := flagged_run reached
  obtain ⟨testing, set⟩ := leaves
  have called : s.calls ≠ 0 := by
    intro none
    exact set (flagged.unused none).2
  have silent : s.calls ≠ 1 → s.own = [] := fun other =>
    (flagged.later (by omega)).2 testing
  refine ⟨⟨?_, ?_⟩, silent⟩
  · rintro ⟨event, member, -⟩
    by_contra other
    rw [silent other] at member
    contradiction
  · intro first
    exact (flagged.first first (.inl testing)).mp set

/-- Two calls: the first gets its reply, the second does not wait. -/
def twoCalls : List Action :=
  [.sendReq, .test, .event (.connect 0), .event (.reply (ascii "ok")), .pollEnds, .test,
    .event .close, .returns, .sendReq]

/-- The second call leaves its loop with no event on its connection. -/
theorem twoCalls_leaves : ∃ s, Reaches twoCalls s ∧ s.calls = 2 ∧ s.Leaves ∧ ¬s.Ended := by
  refine ⟨_, run_getD {} (by decide), rfl, ⟨rfl, by decide⟩, ?_⟩
  rintro ⟨event, member, -⟩
  contradiction

/-- The hypotheses of `leaves_iff` hold of the second call. -/
theorem twoCalls_silent : ∃ s, Reaches twoCalls s ∧ (s.calls ≠ 1 → s.own = []) := by
  have reached : Reaches twoCalls _ := run_getD {} (by decide)
  exact ⟨_, reached, (leaves_iff reached ⟨rfl, by decide⟩).2⟩

end CppCode.HttpClient
