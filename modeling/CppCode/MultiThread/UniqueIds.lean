import CppCode.MultiThread.Identity

/-!
# When identities are unique

`s_next_id` is a 32-bit counter that is never checked, and an identity of 0 reads as `NULL`. A
connection that stays open while `2 ^ 32` others are accepted meets a connection with its own
identity, and every `2 ^ 32`-th accept gets no identity at all. `uniqueIds_iff` says that these
two events, and nothing else, break the uniqueness of `user_data`.
-/

namespace CppCode.MultiThread

open Library Mongoose

variable {capacity : Nat} {s next : Server} {action : Action} {actions : List Action}

/-- `user_data` of the accepted connections that are open, newest first. -/
def Server.userDatas (s : Server) : List UInt32 :=
  (s.active.filter fun c => c.serial ≠ 0).map Connection.userData

/-- Every open accepted connection has a `user_data` that is not `NULL`, and no two have the
same. -/
def UniqueIds (s : Server) : Prop := 0 ∉ s.userDatas ∧ s.userDatas.Nodup

instance (s : Server) : Decidable (UniqueIds s) :=
  inferInstanceAs (Decidable (_ ∧ _))

/-- An accept is not one of each `2 ^ 32`, and the connections that were accepted a multiple of
`2 ^ 32` accepts before it are closed. -/
def FreshAccept (s : Server) (action : Action) : Prop :=
  action = .accept →
    ¬2 ^ 32 ∣ s.accepts + 1 ∧
      ∀ c ∈ s.active, c.serial ≠ 0 → ¬2 ^ 32 ∣ s.accepts + 1 - c.serial

/-- The identities depend only on the accept number and the `user_data` of each connection. -/
theorem userDatas_congr
    (same : next.active.map (fun c => (c.serial, c.userData)) =
      s.active.map fun c => (c.serial, c.userData)) : next.userDatas = s.userDatas := by
  have filtered : ∀ active : List Connection,
      (active.filter fun c => c.serial ≠ 0).map Connection.userData =
        ((active.map fun c => (c.serial, c.userData)).filter fun pair => pair.1 ≠ 0).map
          Prod.snd := by
    intro active
    rw [List.filter_map, List.map_map]
    rfl
  simp only [Server.userDatas, filtered, same]

/-- An accept adds the next identity. -/
theorem userDatas_accept (s : Server) :
    (acceptConn s).userDatas = (s.nextId + 1) :: s.userDatas := by
  simp [Server.userDatas, acceptConn]

/-- Closing a connection only takes identities away. -/
theorem userDatas_close (s : Server) (c : Connection) (leftover : Option HttpMessage) :
    (closeConn s c leftover).userDatas.Sublist s.userDatas := by
  simp only [Server.userDatas, (closeConn_frame c leftover).1]
  exact (List.filter_sublist.filter _).map _

/-- The next identity is `NULL` for one accept in each `2 ^ 32`. -/
theorem nextId_zero_iff (inv : Identified s) : s.nextId + 1 = 0 ↔ 2 ^ 32 ∣ s.accepts + 1 := by
  have counted := nextId_toNat inv.counter
  rw [← UInt32.toNat_inj, counted]
  change (s.accepts + 1) % 2 ^ 32 = 0 ↔ _
  exact Nat.dvd_iff_mod_eq_zero.symm

/-- The next identity is in use exactly when a connection is open that was accepted a multiple
of `2 ^ 32` accepts before. -/
theorem nextId_used_iff (inv : Identified s) :
    s.nextId + 1 ∈ s.userDatas ↔
      ∃ c ∈ s.active, c.serial ≠ 0 ∧ 2 ^ 32 ∣ s.accepts + 1 - c.serial := by
  have counted := nextId_toNat inv.counter
  have congruent : ∀ c ∈ s.active,
      c.userData = s.nextId + 1 ↔ 2 ^ 32 ∣ s.accepts + 1 - c.serial := by
    intro c member
    obtain ⟨identity, bound⟩ := inv.userData c member
    rw [← UInt32.toNat_inj, identity, counted]
    omega
  simp only [Server.userDatas, List.mem_map, List.mem_filter, decide_eq_true_eq, and_assoc]
  refine exists_congr fun c => and_congr_right fun member => and_congr_right fun _ => ?_
  exact congruent c member

/-- A step from a state with unique identities keeps them unique exactly when it is no accept
that repeats one. -/
theorem uniqueIds_step (inv : Identified s) (unique : UniqueIds s)
    (taken : step capacity s action = some next) : UniqueIds next ↔ FreshAccept s action := by
  obtain ⟨nonzero, distinct⟩ := unique
  cases touched : action.touchesConnections with
  | false =>
    have same : next.userDatas = s.userDatas := by
      rw [Server.userDatas, active_of_untouched taken touched, Server.userDatas]
    refine iff_of_true ?_ (by rintro rfl; contradiction)
    exact ⟨same ▸ nonzero, same ▸ distinct⟩
  | true =>
    cases step_sound taken with
    | accept =>
      have added := userDatas_accept s
      simp only [UniqueIds, FreshAccept, added, List.mem_cons, not_or, List.nodup_cons,
        nonzero, distinct, not_false_eq_true, and_true, forall_const]
      apply and_congr
      · exact not_congr (eq_comm.trans (nextId_zero_iff inv))
      · rw [nextId_used_iff inv]
        simp only [not_exists, not_and]
    | @close _ leftover c =>
      have kept := userDatas_close s c leftover
      refine iff_of_true ⟨fun zero => nonzero (kept.subset zero), distinct.sublist kept⟩ ?_
      rintro ⟨⟩
    | @handleCtl msg =>
      refine iff_of_true ?_ (by rintro ⟨⟩)
      unfold UniqueIds
      rw [userDatas_congr (mgMgrHandleCtlSock_identity s.active msg.result)]
      exact ⟨nonzero, distinct⟩
    | _ => contradiction

/-- In every state of a run each open accepted connection has a `user_data` that is not `NULL`
and no two have the same, exactly when no accept of the run is one of each `2 ^ 32` or finds
open a connection that was accepted a multiple of `2 ^ 32` accepts before. -/
theorem uniqueIds_iff (reached : Reaches capacity actions s) :
    Always (step capacity) UniqueIds start actions ↔
      Along (step capacity) FreshAccept start actions :=
  always_iff_along (fun _ _ _ => identified_step) (fun _ _ _ => uniqueIds_step)
    identified_start ⟨by simp [Server.userDatas, start, listener],
      by simp [Server.userDatas, start, listener]⟩ reached

/-- A run of fewer than `2 ^ 32` accepts keeps the identities unique. -/
theorem uniqueIds_of_bounded (reached : Reaches capacity actions s)
    (bounded : s.accepts < 2 ^ 32) : UniqueIds s := by
  have inv := identified_run reached
  have small : ∀ c ∈ s.active, c.userData.toNat = c.serial := by
    intro c member
    obtain ⟨identity, bound⟩ := inv.userData c member
    omega
  constructor
  · intro zero
    obtain ⟨c, member, vanishes⟩ := List.mem_map.mp zero
    obtain ⟨member, accepted⟩ := List.mem_filter.mp member
    have serial := small c member
    rw [vanishes] at serial
    exact of_decide_eq_true accepted serial.symm
  · refine List.Nodup.map_on ?_ (inv.distinct.of_map _ |>.filter _)
    intro c member other listed same
    have inside := List.mem_of_mem_filter member
    have present := List.mem_of_mem_filter listed
    have serial : c.serial = other.serial := by
      rw [← small c inside, ← small other present, same]
    exact List.inj_on_of_nodup_map inv.distinct inside present serial

/-- A number of clients connect and disconnect, one after the other. -/
def visits (count : Nat) : List Action :=
  (List.range count).flatMap fun visit => [.accept, .close (visit + 1) none]

/-- The state after a number of visits, in which only their number is left. -/
def visited (count : Nat) : Server :=
  { start with nextId := UInt32.ofNat count, accepts := count }

/-- After the visits one more connection can be accepted. -/
theorem visited_accept (count : Nat) :
    step capacity (visited count) .accept = some (acceptConn (visited count)) := by
  have polling : (visited count).Polling := ⟨rfl, rfl⟩
  simp only [step, if_pos polling]

/-- One more visit changes only the counters. -/
theorem visit_run (count : Nat) :
    run (step capacity) (visited count) [.accept, .close (count + 1) none] =
      some (visited (count + 1)) := by
  have found : (acceptConn (visited count)).find? (count + 1) =
      some ⟨count + 1, UInt32.ofNat count + 1, []⟩ :=
    List.find?_cons_of_pos (decide_eq_true rfl)
  have closed : step capacity (acceptConn (visited count)) (.close (count + 1) none) =
      some (closeConn (acceptConn (visited count)) ⟨count + 1, UInt32.ofNat count + 1, []⟩
        none) := by
    simp only [step]
    rw [if_pos (.inl ⟨⟨rfl, rfl⟩, Nat.succ_ne_zero count⟩), found, Option.map_some]
  have left : closeConn (acceptConn (visited count)) ⟨count + 1, UInt32.ofNat count + 1, []⟩
      none = visited (count + 1) := by
    simp [closeConn, acceptConn, visited, start, listener]
  rw [left] at closed
  exact run_cons_iff.mpr ⟨_, visited_accept count, run_cons_iff.mpr ⟨_, closed, rfl⟩⟩

/-- The state after any number of visits. -/
theorem visits_run (count : Nat) : Reaches capacity (visits count) (visited count) := by
  induction count with
  | zero => rfl
  | succ count ih =>
    rw [visits, List.range_succ, List.flatMap_append, List.flatMap_singleton]
    exact run_append_iff.mpr ⟨visited count, ih, visit_run count⟩

/-- One more client connects after the visits. -/
theorem visits_accept (count : Nat) :
    Reaches capacity (visits count ++ [.accept]) (acceptConn (visited count)) := by
  rw [Reaches, run_concat .accept (visits_run count), visited_accept]

/-- The client whose accept wraps the counter has no identity. -/
theorem visits_null {count : Nat} (wraps : UInt32.ofNat count + 1 = 0) :
    (acceptConn (visited count)).userDatas = [0] := by
  rw [userDatas_accept]
  exact congrArg (· :: []) wraps

/-- The identities are not unique in the state that it reaches. -/
theorem visits_notUnique {count : Nat} (wraps : UInt32.ofNat count + 1 = 0) :
    ¬UniqueIds (acceptConn (visited count)) := by
  intro unique
  rw [UniqueIds, visits_null wraps] at unique
  exact unique.1 (List.mem_singleton_self 0)

/-- A run in which an accept wraps the counter does not keep the identities unique. -/
theorem visits_notAlways {count : Nat} (wraps : UInt32.ofNat count + 1 = 0) :
    ¬Always (step capacity) UniqueIds start (visits count ++ [.accept]) := by
  intro always
  exact visits_notUnique wraps (always _ [] _ (List.append_nil _).symm (visits_accept count))

/-- The connection that is accepted after `2 ^ 32 - 1` visits has the identity `NULL`. -/
theorem lastVisit_null :
    Reaches 1 (visits 4294967295 ++ [.accept]) (acceptConn (visited 4294967295)) ∧
      (acceptConn (visited 4294967295)).userDatas = [0] ∧
      ¬UniqueIds (acceptConn (visited 4294967295)) :=
  ⟨visits_accept 4294967295, visits_null (by decide), visits_notUnique (by decide)⟩

/-- The hypothesis of `uniqueIds_iff` holds of that run, whose last accept is not fresh. -/
theorem lastVisit_stale :
    ¬Along (step 1) FreshAccept start (visits 4294967295 ++ [.accept]) :=
  mt (uniqueIds_iff (visits_accept 4294967295)).mpr (visits_notAlways (by decide))

end CppCode.MultiThread
