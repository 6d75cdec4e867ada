import CppCode.Mongoose.Text

/-!
# Event managers and their interface arrays

What a `struct mg_mgr` keeps: the head of its list of active connections and a heap array of
interfaces, which a copy by value shares. `mg_mgr_init` allocates the array, `mg_mgr_poll` reads
it, and `mg_mgr_free` releases it without clearing the pointer. The heap records the releases and
every use of a buffer after its release. What a program does after such a use is not determined;
the model goes on with the next statement.
-/

namespace CppCode.Mongoose

/-- A use of the heap that the language does not define. -/
inductive Fault
  /-- Reading a released buffer. -/
  | readReleased (buffer : Nat)
  /-- Releasing a buffer again. -/
  | releasedTwice (buffer : Nat)
  /-- Reading a connection that was destroyed. -/
  | readDestroyed (connection : Nat)
  deriving DecidableEq, Repr

/-- The heap buffers that the program holds pointers to, numbered as they are allocated. -/
structure Heap where
  /-- Number of the next buffer. -/
  next : Nat := 0
  /-- Released buffers, newest first. -/
  released : List Nat := []
  /-- Undefined uses, newest first. -/
  faults : List Fault := []
  deriving DecidableEq, Repr

/-- Allocate a buffer. -/
def Heap.malloc (heap : Heap) : Nat × Heap := (heap.next, { heap with next := heap.next + 1 })

/-- Read a buffer. -/
def Heap.read (heap : Heap) (buffer : Option Nat) : Heap :=
  match buffer with
  | none => heap
  | some p =>
    if p ∈ heap.released then { heap with faults := .readReleased p :: heap.faults } else heap

/-- Release a buffer; releasing `NULL` does nothing. -/
def Heap.free (heap : Heap) (buffer : Option Nat) : Heap :=
  match buffer with
  | none => heap
  | some p =>
    if p ∈ heap.released then { heap with faults := .releasedTwice p :: heap.faults }
    else { heap with released := p :: heap.released }

/-- Whether a pointer is to a released buffer. -/
def Heap.isReleased (heap : Heap) (buffer : Option Nat) : Bool :=
  match buffer with
  | none => false
  | some p => decide (p ∈ heap.released)

/-- `mg_num_ifaces`: the socket interface and the tunnel interface. -/
def mgNumIfaces : Nat := 2

/-- `struct mg_mgr`; the default value is a zeroed manager. -/
structure MgMgr where
  /-- `active_connections`, newest first. -/
  active : List Nat := []
  /-- `num_ifaces`. -/
  numIfaces : Nat := 0
  /-- `ifaces`. -/
  ifaces : Option Nat := none
  deriving DecidableEq, Repr

/-- `mg_mgr_init`, which overwrites the manager. -/
def mgMgrInit (heap : Heap) : MgMgr × Heap :=
  let (array, heap) := heap.malloc
  ({ active := [], numIfaces := mgNumIfaces, ifaces := some array }, heap)

/-- The accesses of `mg_mgr_poll` to the interface array: none without interfaces. -/
def mgMgrPoll (m : MgMgr) (heap : Heap) : Heap :=
  if m.numIfaces = 0 then heap else heap.read m.ifaces

/-- The end of `mg_mgr_free`: the interfaces and their array are released. -/
def freeIfaces (m : MgMgr) (heap : Heap) : Heap := (mgMgrPoll m heap).free m.ifaces

/-- Reading releases nothing. -/
@[simp] theorem Heap.read_released (heap : Heap) (buffer : Option Nat) :
    (heap.read buffer).released = heap.released := by
  unfold Heap.read
  split
  · rfl
  · split <;> rfl

/-- Polling releases nothing. -/
@[simp] theorem mgMgrPoll_released (m : MgMgr) (heap : Heap) :
    (mgMgrPoll m heap).released = heap.released := by
  unfold mgMgrPoll
  split
  · rfl
  · exact Heap.read_released heap m.ifaces

/-- After a release the buffer is released. -/
theorem Heap.isReleased_free (heap : Heap) (p : Nat) :
    (heap.free (some p)).isReleased (some p) = true := by
  apply decide_eq_true
  unfold Heap.free
  dsimp only
  split
  · assumption
  · exact List.mem_cons_self

/-- Releasing allocates nothing. -/
theorem Heap.free_next (heap : Heap) (pointer : Option Nat) :
    (heap.free pointer).next = heap.next := by
  cases pointer with
  | none => rfl
  | some p => by_cases inside : p ∈ heap.released <;> simp [Heap.free, inside]

/-- Releasing adds at most the pointer to the released buffers. -/
theorem Heap.free_released {heap : Heap} {pointer : Option Nat} {p : Nat}
    (inside : p ∈ (heap.free pointer).released) : p ∈ heap.released ∨ pointer = some p := by
  cases pointer with
  | none => exact .inl inside
  | some q =>
    by_cases twice : q ∈ heap.released
    · simp only [Heap.free, twice, if_true] at inside
      exact .inl inside
    · simp only [Heap.free, twice, if_false, List.mem_cons] at inside
      rcases inside with rfl | old
      · exact .inr rfl
      · exact .inl old

/-- A poll allocates nothing. -/
theorem mgMgrPoll_next (m : MgMgr) (heap : Heap) : (mgMgrPoll m heap).next = heap.next := by
  unfold mgMgrPoll
  split
  · rfl
  · cases m.ifaces with
    | none => rfl
    | some p => by_cases inside : p ∈ heap.released <;> simp [Heap.read, inside]

end CppCode.Mongoose
