import CppCode.Interfaces.Module
import CppCode.Library.LifeCycle

/-!
# The life of the port and of the interface array

`Close` releases the interface array of the manager and the copy of the port and leaves both
pointers set; `Bind` replaces the pointers when it gets that far, and returns before when it is
given no port. Seen from outside, each of the two pointers is a resource variable that a call
acquires, releases or leaves alone, whatever the sockets answer (`ifaces_life`, `port_life`).
`resources_iff` reads off the history when no call uses or releases what was released.
-/

namespace CppCode.Interfaces

open Library Mongoose

/-- What a pointer holds. -/
def life (heap : Heap) (pointer : Option Nat) : Life :=
  match pointer with
  | none => .none
  | some p => if p ∈ heap.released then .released else .live

/-- What a call does with the interface array: `Bind` with a port allocates one. -/
def Call.ifacesUse : Call → Use
  | .bind args _ => if (given args.port).isSome then .acquire else .keep
  | .startListen => .keep
  | .close => .release

/-- What a call does with the copy of the port: `Bind` allocates one unless the allocation
throws. -/
def Call.portUse : Call → Use
  | .bind args _ =>
    if ((given args.port).bind fun port => newCopy (cString port.bytes)).isSome then .acquire
    else .keep
  | .startListen => .keep
  | .close => .release

/-- The pointers of the module are to different buffers that were allocated, and the manager has
interfaces exactly when it has an array. -/
structure Owned (s : Module) : Prop where
  /-- The array was allocated. -/
  ifaces : ∀ p, s.mgr.ifaces = some p → p < s.heap.next
  /-- The copy of the port was allocated. -/
  port : ∀ p, s.port = some p → p < s.heap.next
  /-- What was released was allocated. -/
  released : ∀ p ∈ s.heap.released, p < s.heap.next
  /-- The array is not the copy of the port. -/
  apart : ∀ p, s.port = some p → s.mgr.ifaces ≠ some p
  /-- A manager without an array has no interfaces. -/
  polls : s.mgr.numIfaces = 0 ↔ s.mgr.ifaces = none

/-! ## The heap -/

/-- Reading a pointer goes wrong exactly when it holds a released buffer. -/
theorem read_faults_iff (heap : Heap) (pointer : Option Nat) :
    (heap.read pointer).faults = [] ↔ heap.faults = [] ∧ life heap pointer ≠ .released := by
  cases pointer with
  | none => simp [Heap.read, life]
  | some p => by_cases inside : p ∈ heap.released <;> simp [Heap.read, life, inside]

/-- Releasing a pointer goes wrong exactly when it holds a released buffer. -/
theorem free_faults_iff (heap : Heap) (pointer : Option Nat) :
    (heap.free pointer).faults = [] ↔ heap.faults = [] ∧ life heap pointer ≠ .released := by
  cases pointer with
  | none => simp [Heap.free, life]
  | some p => by_cases inside : p ∈ heap.released <;> simp [Heap.free, life, inside]

/-- A buffer that was released holds a released resource for every pointer to it; other pointers
hold what they held. -/
theorem life_free {heap : Heap} {pointer other : Option Nat}
    (apart : ∀ p, pointer = some p → other ≠ some p) :
    life (heap.free other) pointer = life heap pointer := by
  cases pointer with
  | none => rfl
  | some p =>
    cases other with
    | none => rfl
    | some q =>
      have different : p ≠ q := fun same => apart p rfl (congrArg some same.symm)
      by_cases inside : q ∈ heap.released <;> simp [Heap.free, life, inside, different]

/-- Releasing a pointer. -/
theorem life_free_self (heap : Heap) (pointer : Option Nat) :
    life (heap.free pointer) pointer = (life heap pointer).apply .release := by
  cases pointer with
  | none => rfl
  | some p => by_cases inside : p ∈ heap.released <;> simp [Heap.free, life, inside, Life.apply]

/-- What a pointer holds depends on the released buffers only. -/
theorem life_congr {heap other : Heap} (same : heap.released = other.released)
    (pointer : Option Nat) : life heap pointer = life other pointer := by
  cases pointer with
  | none => rfl
  | some p => simp [life, same]

/-- A poll goes wrong exactly when the manager has a released array. -/
theorem mgMgrPoll_faults_iff {m : MgMgr} (polls : m.numIfaces = 0 ↔ m.ifaces = none)
    (heap : Heap) :
    (mgMgrPoll m heap).faults = [] ↔ heap.faults = [] ∧ life heap m.ifaces ≠ .released := by
  unfold mgMgrPoll
  split
  · rename_i empty
    simp [polls.mp empty, life]
  · exact read_faults_iff heap m.ifaces

/-! ## One call -/

/-- A listener is added to the manager, or nothing changes in it. -/
theorem mgBindOpt_ok {m bound : MgMgr} {listener : Nat} {opts : MgBindOpts} {env : BindEnv}
    (opened : mgBindOpt m listener opts env = .ok bound) :
    bound = { m with active := listener :: m.active } := by
  unfold mgBindOpt at opened
  dsimp only at opened
  repeat' split at opened
  all_goals first | contradiction | exact (Except.ok.inj opened).symm

/-- The end of `Bind` changes neither the pointers nor the heap. -/
theorem bindListener_frame (s : Module) (env : BindEnv) :
    (bindListener s env).1.heap = s.heap ∧ (bindListener s env).1.port = s.port ∧
      (bindListener s env).1.mgr.ifaces = s.mgr.ifaces ∧
      (bindListener s env).1.mgr.numIfaces = s.mgr.numIfaces := by
  unfold bindListener
  split
  · exact ⟨rfl, rfl, rfl, rfl⟩
  · rename_i mgr bound
    rw [mgBindOpt_ok bound]
    exact ⟨rfl, rfl, rfl, rfl⟩

/-- The copies of `Bind`: the port gets the next buffer when its copy is allocated, and nothing
else of the pointers and the heap changes. -/
theorem bindCopies_frame (s : Module) (port : Option Bytes) (cert key : Option (Option Bytes))
    (env : BindEnv) :
    (bindCopies s port cert key env).1.mgr.ifaces = s.mgr.ifaces ∧
      (bindCopies s port cert key env).1.mgr.numIfaces = s.mgr.numIfaces ∧
      (bindCopies s port cert key env).1.heap =
        (if port.isSome then s.heap.malloc.2 else s.heap) ∧
      (bindCopies s port cert key env).1.port =
        (if port.isSome then some s.heap.next else s.port) := by
  cases port with
  | none => exact ⟨rfl, rfl, rfl, rfl⟩
  | some buffer =>
    cases cert with
    | none => exact ⟨rfl, rfl, rfl, rfl⟩
    | some cert =>
      cases key with
      | none => exact ⟨rfl, rfl, rfl, rfl⟩
      | some key =>
        obtain ⟨heap, port, ifaces, numIfaces⟩ := bindListener_frame
          { s with
            port := some s.heap.next
            heap := s.heap.malloc.2
            bindOpts := storeKey (storeCert s.bindOpts cert) key } env
        exact ⟨ifaces, numIfaces, heap, port⟩

/-- `Bind` with a port: the manager gets the next buffer as its array, the port gets the one
after it when its copy is allocated, and nothing is released or used. -/
theorem bind_frame {s : Module} {args : BindArgs} {port : CText} (env : BindEnv)
    (portGiven : given args.port = some port) :
    (bind s args env).1.mgr.ifaces = some s.heap.next ∧
      (bind s args env).1.mgr.numIfaces = mgNumIfaces ∧
      (bind s args env).1.heap =
        (if (newCopy (cString port.bytes)).isSome then s.heap.malloc.2.malloc.2
          else s.heap.malloc.2) ∧
      (bind s args env).1.port =
        (if (newCopy (cString port.bytes)).isSome then some (s.heap.next + 1) else s.port) := by
  simp only [bind, portGiven]
  exact bindCopies_frame _ _ _ _ env

/-- `Bind` without a port changes nothing. -/
theorem bind_no_port {args : BindArgs} (s : Module) (env : BindEnv)
    (absent : given args.port = none) : (bind s args env).1 = s := by
  simp only [bind, absent]

/-- What `Bind` with a port keeps of the heap. -/
theorem bind_heap {s : Module} {args : BindArgs} {port : CText} (env : BindEnv)
    (portGiven : given args.port = some port) :
    (bind s args env).1.heap.released = s.heap.released ∧
      (bind s args env).1.heap.faults = s.heap.faults ∧
      s.heap.next < (bind s args env).1.heap.next := by
  rw [(bind_frame env portGiven).2.2.1]
  split
  · exact ⟨rfl, rfl, Nat.lt_succ_of_lt (Nat.lt_succ_self _)⟩
  · exact ⟨rfl, rfl, Nat.lt_succ_self _⟩

/-- A call keeps the pointers in order. -/
theorem owned_exec {s : Module} (owned : Owned s) (call : Call) : Owned (exec s call) := by
  cases call with
  | startListen =>
    constructor
    case ifaces => exact fun p held => (mgMgrPoll_next s.mgr s.heap).symm ▸ owned.ifaces p held
    case port => exact fun p held => (mgMgrPoll_next s.mgr s.heap).symm ▸ owned.port p held
    case released =>
      intro p inside
      simp only [exec, startListen, mgMgrPoll_released] at inside
      exact (mgMgrPoll_next s.mgr s.heap).symm ▸ owned.released p inside
    case apart => exact owned.apart
    case polls => exact owned.polls
  | close =>
    have next : (exec s .close).heap.next = s.heap.next := by
      simp only [exec, close, freeIfaces, Heap.free_next, mgMgrPoll_next]
    constructor
    case ifaces => exact fun p held => next.symm ▸ owned.ifaces p held
    case port => exact fun p held => next.symm ▸ owned.port p held
    case released =>
      intro p inside
      rw [next]
      rcases Heap.free_released inside with inside | copy
      · rcases Heap.free_released inside with inside | array
        · rw [mgMgrPoll_released, mgMgrPoll_released] at inside
          exact owned.released p inside
        · exact owned.ifaces p array
      · exact owned.port p copy
    case apart => exact owned.apart
    case polls => exact owned.polls
  | bind args env =>
    cases portGiven : given args.port with
    | none => simpa only [exec, bind_no_port s env portGiven] using owned
    | some port =>
      obtain ⟨ifaces, numIfaces, heap, copy⟩ := @bind_frame s _ _ env portGiven
      obtain ⟨released, -, grown⟩ := @bind_heap s _ _ env portGiven
      constructor
      case ifaces =>
        intro p held
        rw [exec, ifaces] at held
        obtain rfl := Option.some.inj held
        exact grown
      case port =>
        intro p held
        rw [exec, copy] at held
        rw [exec, heap]
        split at held
        · rename_i copied
          obtain rfl := Option.some.inj held
          rw [if_pos copied]
          exact Nat.lt_succ_self _
        · rename_i thrown
          rw [if_neg thrown]
          exact Nat.lt_succ_of_lt (owned.port p held)
      case released =>
        intro p inside
        rw [exec, released] at inside
        exact lt_trans (owned.released p inside) grown
      case apart =>
        intro p held same
        rw [exec, ifaces] at same
        rw [exec, copy] at held
        obtain rfl := Option.some.inj same
        split at held
        · exact absurd (Option.some.inj held) (Nat.succ_ne_self _)
        · exact lt_irrefl _ (owned.port _ held)
      case polls => simp [exec, ifaces, numIfaces, mgNumIfaces]

/-- A buffer that was not allocated yet was not released. -/
theorem life_fresh {s : Module} (owned : Owned s) {p : Nat} (fresh : s.heap.next ≤ p) :
    life s.heap (some p) = .live := by
  have outside : p ∉ s.heap.released := fun inside =>
    absurd (owned.released p inside) (Nat.not_lt.mpr fresh)
  simp [life, outside]

/-- The interface array goes through its life cycle. -/
theorem ifaces_exec {s : Module} (owned : Owned s) (call : Call) :
    life (exec s call).heap (exec s call).mgr.ifaces =
      (life s.heap s.mgr.ifaces).apply call.ifacesUse := by
  cases call with
  | startListen =>
    rw [Call.ifacesUse, Life.apply_keep]
    exact life_congr (mgMgrPoll_released s.mgr s.heap) _
  | close =>
    have apart : ∀ p, s.mgr.ifaces = some p → s.port ≠ some p :=
      fun p array copy => owned.apart p copy array
    change life ((freeIfaces { s.mgr with active := [] } (mgMgrPoll s.mgr s.heap)).free s.port)
      s.mgr.ifaces = _
    rw [life_free apart, freeIfaces, life_free_self, Call.ifacesUse]
    congr 1
    apply life_congr
    rw [mgMgrPoll_released, mgMgrPoll_released]
  | bind args env =>
    cases portGiven : given args.port with
    | none => simp [exec, bind_no_port s env portGiven, Call.ifacesUse, portGiven]
    | some port =>
      rw [exec, (bind_frame env portGiven).1, life_congr (bind_heap env portGiven).1,
        life_fresh owned (le_refl _)]
      simp [Call.ifacesUse, portGiven, Life.apply]

/-- The copy of the port goes through its life cycle. -/
theorem port_exec {s : Module} (owned : Owned s) (call : Call) :
    life (exec s call).heap (exec s call).port = (life s.heap s.port).apply call.portUse := by
  cases call with
  | startListen =>
    rw [Call.portUse, Life.apply_keep]
    exact life_congr (mgMgrPoll_released s.mgr s.heap) _
  | close =>
    change life ((freeIfaces { s.mgr with active := [] } (mgMgrPoll s.mgr s.heap)).free s.port)
      s.port = _
    rw [life_free_self, freeIfaces, life_free owned.apart, Call.portUse]
    congr 1
    apply life_congr
    rw [mgMgrPoll_released, mgMgrPoll_released]
  | bind args env =>
    cases portGiven : given args.port with
    | none => simp [exec, bind_no_port s env portGiven, Call.portUse, portGiven]
    | some port =>
      rw [exec, (bind_frame env portGiven).2.2.2, life_congr (bind_heap env portGiven).1,
        Call.portUse, portGiven, Option.bind_some]
      split
      · exact life_fresh owned (Nat.le_succ _)
      · exact (Life.apply_keep _).symm

/-- A call uses nothing that was released: `StartListen` polls no released array, and `Close`
neither polls nor releases one, nor releases the port again. -/
def Harmless (s : Module) : Call → Prop
  | .bind _ _ => True
  | .startListen => life s.heap s.mgr.ifaces ≠ .released
  | .close => life s.heap s.mgr.ifaces ≠ .released ∧ life s.heap s.port ≠ .released

/-- A call goes wrong exactly when it is not harmless. -/
theorem faults_exec {s : Module} (owned : Owned s) (call : Call) :
    (exec s call).heap.faults = [] ↔ s.heap.faults = [] ∧ Harmless s call := by
  cases call with
  | bind args env =>
    cases portGiven : given args.port with
    | none => simp [exec, bind_no_port s env portGiven, Harmless]
    | some port => simp [exec, (bind_heap env portGiven).2.1, Harmless]
  | startListen => exact mgMgrPoll_faults_iff owned.polls s.heap
  | close =>
    let emptied : MgMgr := { s.mgr with active := [] }
    have once : life (mgMgrPoll s.mgr s.heap) emptied.ifaces = life s.heap s.mgr.ifaces :=
      life_congr (mgMgrPoll_released s.mgr s.heap) _
    have twice : life (mgMgrPoll emptied (mgMgrPoll s.mgr s.heap)) emptied.ifaces =
        life s.heap s.mgr.ifaces :=
      (life_congr (mgMgrPoll_released emptied _) _).trans once
    have copy : life (freeIfaces emptied (mgMgrPoll s.mgr s.heap)) s.port =
        life s.heap s.port := by
      rw [freeIfaces, life_free owned.apart]
      exact life_congr (by rw [mgMgrPoll_released, mgMgrPoll_released]) s.port
    change ((freeIfaces emptied (mgMgrPoll s.mgr s.heap)).free s.port).faults = [] ↔ _
    rw [free_faults_iff, copy, freeIfaces, free_faults_iff, twice,
      @mgMgrPoll_faults_iff emptied owned.polls, once, mgMgrPoll_faults_iff owned.polls]
    simp only [Harmless]
    tauto

/-! ## All calls -/

/-- The module after one more call. -/
theorem after_concat (history : List Call) (call : Call) :
    after (history ++ [call]) = exec (after history) call := by
  simp [after]

/-- The pointers are in order after every history. -/
theorem owned_after (history : List Call) : Owned (after history) := by
  induction history using List.reverseRecOn with
  | nil => constructor <;> simp [after]
  | append_singleton history call ih =>
    rw [after_concat]
    exact owned_exec ih call

/-- What the interface array is after a history. -/
theorem ifaces_life (history : List Call) :
    life (after history).heap (after history).mgr.ifaces =
      lifeAfter (history.map Call.ifacesUse) := by
  induction history using List.reverseRecOn with
  | nil => rfl
  | append_singleton history call ih =>
    rw [after_concat, ifaces_exec (owned_after history), ih, List.map_append, List.map_singleton,
      lifeAfter_concat]

/-- What the copy of the port is after a history. -/
theorem port_life (history : List Call) :
    life (after history).heap (after history).port = lifeAfter (history.map Call.portUse) := by
  induction history using List.reverseRecOn with
  | nil => rfl
  | append_singleton history call ih =>
    rw [after_concat, port_exec (owned_after history), ih, List.map_append, List.map_singleton,
      lifeAfter_concat]

/-- A resource that was acquired before a `Close` was acquired again since. -/
def Renewed (use : Call → Use) (history : List Call) : Prop :=
  ∀ first later, history = first ++ .close :: later →
    (∃ call ∈ first, use call = .acquire) → ∃ call ∈ later, use call = .acquire

/-- Only `Close` releases. -/
theorem ifacesUse_release_iff (call : Call) : call.ifacesUse = .release ↔ call = .close := by
  cases call with
  | bind args env =>
    simp only [Call.ifacesUse]
    split <;> simp
  | _ => simp [Call.ifacesUse]

/-- Only `Close` releases. -/
theorem portUse_release_iff (call : Call) : call.portUse = .release ↔ call = .close := by
  cases call with
  | bind args env =>
    simp only [Call.portUse]
    split <;> simp
  | _ => simp [Call.portUse]

/-- A resource is renewed exactly when its variable holds no released one. -/
theorem renewed_iff {use : Call → Use} (releases : ∀ call, use call = .release ↔ call = .close)
    (history : List Call) : Renewed use history ↔ lifeAfter (history.map use) ≠ .released := by
  rw [ne_eq, lifeAfter_released_iff]
  constructor
  · rintro renewed ⟨before, after, split, acquired, since⟩
    obtain ⟨first, rest, rfl, rfl, tail⟩ := List.map_eq_append_iff.mp split
    obtain ⟨call, later, rfl, closes, rfl⟩ := List.map_eq_cons_iff.mp tail
    obtain rfl := (releases call).mp closes
    obtain ⟨call, member, same⟩ := List.mem_map.mp acquired
    obtain ⟨again, inside, renews⟩ := renewed first later rfl ⟨call, member, same⟩
    exact since (List.mem_map.mpr ⟨again, inside, renews⟩)
  · rintro fresh first later rfl ⟨call, member, acquires⟩
    by_contra none
    refine fresh ⟨first.map use, later.map use, ?_, List.mem_map.mpr ⟨call, member, acquires⟩, ?_⟩
    · rw [List.map_append, List.map_cons, (releases .close).mpr rfl]
    · intro inside
      obtain ⟨again, listed, renews⟩ := List.mem_map.mp inside
      exact none ⟨again, listed, renews⟩

/-- Between a `Close` and a later `StartListen` or `Close` the interface array is allocated
again, if there was one, and between two of `Close` the copy of the port is. -/
def RenewsResources (history : List Call) : Prop :=
  ∀ before call later, history = before ++ call :: later →
    (call = .startListen ∨ call = .close → Renewed Call.ifacesUse before) ∧
      (call = .close → Renewed Call.portUse before)

/-- A call after a history is harmless exactly when what it uses was renewed. -/
theorem harmless_iff (history : List Call) (call : Call) :
    Harmless (after history) call ↔
      (call = .startListen ∨ call = .close → Renewed Call.ifacesUse history) ∧
        (call = .close → Renewed Call.portUse history) := by
  rw [renewed_iff ifacesUse_release_iff, renewed_iff portUse_release_iff, ← ifaces_life,
    ← port_life]
  cases call <;> simp [Harmless]

/-- In a history of calls nothing is released twice and no released array is polled, exactly
when every `StartListen` and `Close` finds renewed what an earlier `Close` released. -/
theorem resources_iff (history : List Call) :
    (after history).heap.faults = [] ↔ RenewsResources history := by
  induction history using List.reverseRecOn with
  | nil => simp [after, RenewsResources]
  | append_singleton history call ih =>
    rw [after_concat, faults_exec (owned_after history), ih, harmless_iff]
    exact forall_moments_concat.symm

/-- The arguments of a `Bind` with a port alone. -/
def httpArgs : BindArgs := ⟨some ⟨ascii "80", by decide⟩, none, none⟩

/-- A `Bind` with a port, a `Close`, a `Bind` without one and a `Close`. -/
def failedRebind : List Call :=
  [.bind httpArgs {}, .close, .bind ⟨none, none, none⟩ {}, .close]

/-- The second `Close` of `failedRebind` polls the released array and releases it and the port
again. -/
theorem failedRebind_faults :
    (after failedRebind).heap.faults = [.releasedTwice 1, .releasedTwice 0, .readReleased 0,
      .readReleased 0] := by
  decide +kernel

end CppCode.Interfaces
