import CppCode.Interfaces.LifeCycle

/-!
# Listeners of the exported interface

`StartListen` serves and `Close` closes the connections that the manager lists, and `Bind` with a
port initialises the manager again, whatever it lists. A listener of an earlier `Bind` is then
lost: its socket stays open, but no later call reaches it. `orphans_iff` says that this happens
in a history of calls exactly when `Bind` is called with a port while a listener is open.
-/

namespace CppCode.Interfaces

open Library Mongoose

/-- A listener was created by a `Bind` that returned 0, and `Close` was not called since. -/
def Listening (history : List Call) (listener : Nat) : Prop :=
  ∃ before args env later, history = before ++ .bind args env :: later ∧
    (bind (after before) args env).2.code = some 0 ∧ (after before).listeners = listener ∧
    .close ∉ later

/-- Every listener that is open is listed by the manager. -/
def NoOrphan (history : List Call) : Prop :=
  ∀ listener, Listening history listener → listener ∈ (after history).mgr.active

/-- `Bind` is called with a port only while no listener is open. -/
def BindsWhenClosed (history : List Call) : Prop :=
  ∀ before call later, history = before ++ call :: later →
    ∀ args env, call = .bind args env → (given args.port).isSome = true →
      ∀ listener, ¬Listening before listener

/-! ## One call -/

/-- What a call adds to the listeners of the module: the new one when it returns 0, and none
otherwise. -/
def Adds (s : Module) (outcome : Module × BindResult) : Prop :=
  (outcome.2.code = some 0 ∧ outcome.1.mgr.active = s.listeners :: s.mgr.active ∧
      outcome.1.listeners = s.listeners + 1) ∨
    (outcome.2.code ≠ some 0 ∧ outcome.1.mgr.active = s.mgr.active ∧
      outcome.1.listeners = s.listeners)

/-- What the end of `Bind` does to the listeners. -/
theorem bindListener_adds (s : Module) (env : BindEnv) : Adds s (bindListener s env) := by
  unfold bindListener
  split
  · exact .inr ⟨by simp, rfl, rfl⟩
  · rename_i mgr bound
    rw [mgBindOpt_ok bound]
    exact .inl ⟨rfl, rfl, rfl⟩

/-- What the copies of `Bind` and its end do to the listeners. -/
theorem bindCopies_adds (s : Module) (port : Option Bytes) (cert key : Option (Option Bytes))
    (env : BindEnv) : Adds s (bindCopies s port cert key env) := by
  cases port with
  | none => exact .inr ⟨by simp [bindCopies], rfl, rfl⟩
  | some buffer =>
    cases cert with
    | none => exact .inr ⟨by simp [bindCopies], rfl, rfl⟩
    | some cert =>
      cases key with
      | none => exact .inr ⟨by simp [bindCopies], rfl, rfl⟩
      | some key =>
        exact bindListener_adds
          { s with
            port := some s.heap.next
            heap := s.heap.malloc.2
            bindOpts := storeKey (storeCert s.bindOpts cert) key } env

/-- What `Bind` with a port does to the listeners: it lists the new one alone, if it succeeds,
and none otherwise. -/
theorem bind_listeners {s : Module} {args : BindArgs} {port : CText} (env : BindEnv)
    (portGiven : given args.port = some port) :
    ((bind s args env).2.code = some 0 ∧ (bind s args env).1.mgr.active = [s.listeners] ∧
        (bind s args env).1.listeners = s.listeners + 1) ∨
      ((bind s args env).2.code ≠ some 0 ∧ (bind s args env).1.mgr.active = [] ∧
        (bind s args env).1.listeners = s.listeners) := by
  simp only [bind, portGiven]
  exact bindCopies_adds _ _ _ _ env

/-- `Bind` succeeds only with a port. -/
theorem given_of_code {s : Module} {args : BindArgs} {env : BindEnv}
    (success : (bind s args env).2.code = some 0) : (given args.port).isSome = true := by
  cases portGiven : given args.port with
  | none => simp [bind, portGiven] at success
  | some port => rfl

/-! ## All calls -/

/-- A listener is open after one more call when the call is no `Close` and it was open before,
or the call is a successful `Bind`, which has created it. -/
theorem listening_concat_iff {history : List Call} {call : Call} {listener : Nat} :
    Listening (history ++ [call]) listener ↔
      (Listening history listener ∧ call ≠ .close) ∨
        ∃ args env, call = .bind args env ∧ (bind (after history) args env).2.code = some 0 ∧
          (after history).listeners = listener := by
  constructor
  · rintro ⟨before, args, env, later, split, success, number, opened⟩
    rcases List.eq_nil_or_concat later with rfl | ⟨later, last, rfl⟩
    · obtain ⟨rfl, same⟩ := List.append_inj' split rfl
      exact .inr ⟨args, env, (List.cons.inj same).1, success, number⟩
    · rw [List.concat_eq_append] at split opened
      have shape : history ++ [call] = (before ++ .bind args env :: later) ++ [last] := by
        simp [split]
      obtain ⟨rfl, same⟩ := List.append_inj' shape rfl
      obtain rfl := (List.cons.inj same).1
      rw [List.mem_append, not_or, List.mem_singleton] at opened
      exact .inl ⟨⟨before, args, env, later, rfl, success, number, opened.1⟩,
        fun closes => opened.2 closes.symm⟩
  · rintro (⟨⟨before, args, env, later, rfl, success, number, opened⟩, other⟩ |
      ⟨args, env, rfl, success, number⟩)
    · refine ⟨before, args, env, later ++ [call], by simp, success, number, ?_⟩
      rw [List.mem_append, not_or, List.mem_singleton]
      exact ⟨opened, fun closes => other closes.symm⟩
    · exact ⟨history, args, env, [], rfl, success, number, List.not_mem_nil⟩

/-- The listeners are numbered in the order in which they are created. -/
theorem listening_lt {history : List Call} {listener : Nat}
    (listening : Listening history listener) : listener < (after history).listeners := by
  induction history using List.reverseRecOn with
  | nil =>
    obtain ⟨before, args, env, later, split, -⟩ := listening
    simp at split
  | append_singleton history call ih =>
    rw [after_concat]
    rcases listening_concat_iff.mp listening with ⟨earlier, -⟩ | ⟨args, env, rfl, success, rfl⟩
    · apply lt_of_lt_of_le (ih earlier)
      cases call with
      | bind args env =>
        cases portGiven : given args.port with
        | none => rw [exec, bind_no_port _ env portGiven]
        | some port =>
          rcases @bind_listeners (after history) _ _ env portGiven with
            ⟨-, -, count⟩ | ⟨-, -, count⟩
          · exact le_trans (Nat.le_succ _) (le_of_eq count.symm)
          · exact le_of_eq count.symm
      | _ => exact le_refl _
    · obtain ⟨port, portGiven⟩ := Option.isSome_iff_exists.mp (given_of_code success)
      rcases @bind_listeners (after history) _ _ env portGiven with
        ⟨-, -, count⟩ | ⟨failure, -⟩
      · exact lt_of_lt_of_le (Nat.lt_succ_self _) (le_of_eq count.symm)
      · exact absurd success failure

/-- After calls that bind only while nothing is open, the manager lists every open listener. -/
theorem noOrphan_of_bindsWhenClosed {history : List Call} (closed : BindsWhenClosed history) :
    NoOrphan history := by
  induction history using List.reverseRecOn with
  | nil =>
    rintro listener ⟨before, args, env, later, split, -⟩
    simp at split
  | append_singleton history call ih =>
    obtain ⟨earlier, last⟩ := forall_moments_concat.mp closed
    have listed := ih earlier
    intro listener listening
    rw [after_concat]
    rcases listening_concat_iff.mp listening with ⟨kept, other⟩ | ⟨args, env, rfl, success, rfl⟩
    · cases call with
      | close => contradiction
      | startListen => exact listed listener kept
      | bind args env =>
        cases portGiven : given args.port with
        | none =>
          rw [exec, bind_no_port _ env portGiven]
          exact listed listener kept
        | some port => exact absurd kept (last args env rfl (by rw [portGiven]; rfl) listener)
    · obtain ⟨port, portGiven⟩ := Option.isSome_iff_exists.mp (given_of_code success)
      rcases @bind_listeners (after history) _ _ env portGiven with
        ⟨-, alone, -⟩ | ⟨failure, -⟩
      · rw [exec, alone]
        exact List.mem_singleton_self _
      · exact absurd success failure

/-- In every state of a history of calls, every listener that a `Bind` has created and no `Close`
has closed is listed by the manager, exactly when `Bind` is called with a port only while no
listener is open. -/
theorem orphans_iff (history : List Call) :
    (∀ before later, history = before ++ later → NoOrphan before) ↔ BindsWhenClosed history := by
  constructor
  · rintro listed before call later rfl args env rfl portGiven listener listening
    obtain ⟨port, portGiven⟩ := Option.isSome_iff_exists.mp portGiven
    have still : Listening (before ++ [.bind args env]) listener :=
      listening_concat_iff.mpr (.inl ⟨listening, by simp⟩)
    have member := listed (before ++ [.bind args env]) later (by simp) listener still
    rw [after_concat, exec] at member
    have older := listening_lt listening
    rcases @bind_listeners (after before) _ _ env portGiven with ⟨-, alone, -⟩ | ⟨-, empty, -⟩
    · rw [alone, List.mem_singleton] at member
      exact absurd member (Nat.ne_of_lt older)
    · rw [empty] at member
      contradiction
  · rintro closed before later rfl
    refine noOrphan_of_bindsWhenClosed fun first call rest split => ?_
    exact closed first call (rest ++ later) (by rw [split]; simp)

/-- The arguments of a `Bind` with another port. -/
def otherArgs : BindArgs := ⟨some ⟨ascii "81", by decide⟩, none, none⟩

/-- Two calls of `Bind` for two ports. -/
def twoPorts : List Call := [.bind httpArgs {}, .bind otherArgs {}]

/-- The listener of the first `Bind` of `twoPorts` is open, and the manager lists only that of
the second. -/
theorem twoPorts_orphan :
    Listening twoPorts 0 ∧ (after twoPorts).mgr.active = [1] ∧ ¬NoOrphan twoPorts := by
  have listening : Listening twoPorts 0 :=
    ⟨[], _, _, _, rfl, by decide +kernel, rfl, by simp⟩
  have active : (after twoPorts).mgr.active = [1] := by decide +kernel
  refine ⟨listening, active, fun listed => ?_⟩
  have member := listed 0 listening
  rw [active] at member
  exact absurd member (by decide)

end CppCode.Interfaces
