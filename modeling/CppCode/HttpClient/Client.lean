import CppCode.Mongoose.Text

/-!
# The event handler of the client

`HttpClient::OnHttpEvent` and the two static variables that it works on. An event carries what the
handler reads of its data: the status of a connect, and the body of a reply as the string that is
constructed from it.
-/

namespace CppCode.HttpClient

open Mongoose

/-- An event that is delivered to `OnHttpEvent`. -/
inductive Event
  /-- `MG_EV_CONNECT` with its status. -/
  | connect (status : Int)
  /-- `MG_EV_HTTP_REPLY` with the body of the reply. -/
  | reply (body : Bytes)
  /-- `MG_EV_CLOSE`. -/
  | close
  /-- Any other event. -/
  | other
  deriving DecidableEq, Repr

/-- The static variables of `HttpClient`. -/
structure Static where
  /-- `s_exit_flag`. -/
  exitFlag : Int := 0
  /-- The strings passed to `s_req_callback` so far. -/
  received : List Bytes := []
  deriving DecidableEq, Repr

/-- `OnHttpEvent`. A reply also marks the connection for closing once everything is sent. -/
def onHttpEvent (s : Static) : Event → Static
  | .connect status => if status ≠ 0 then { s with exitFlag := 1 } else s
  | .reply body => { exitFlag := 1, received := s.received ++ [body] }
  | .close => if s.exitFlag = 0 then { s with exitFlag := 1 } else s
  | .other => s

/-- The connection of a call has delivered its reply, failed to connect, or was closed. -/
def Event.Ends : Event → Prop
  | .connect status => status ≠ 0
  | .reply _ | .close => True
  | .other => False

instance : DecidablePred Event.Ends
  | .connect status => inferInstanceAs (Decidable (status ≠ 0))
  | .reply _ | .close => isTrue trivial
  | .other => isFalse id

/-- The flag is set after an event exactly when it was set before or the event ends the call. -/
theorem exitFlag_onHttpEvent (s : Static) (event : Event) :
    (onHttpEvent s event).exitFlag ≠ 0 ↔ s.exitFlag ≠ 0 ∨ event.Ends := by
  cases event with
  | connect status =>
    simp only [onHttpEvent, Event.Ends]
    split <;> simp_all
  | reply body => simp [onHttpEvent, Event.Ends]
  | close =>
    simp only [onHttpEvent, Event.Ends]
    split <;> simp_all
  | other => simp [onHttpEvent, Event.Ends]

end CppCode.HttpClient
