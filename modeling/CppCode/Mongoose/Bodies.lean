import CppCode.Library.Run
import CppCode.Mongoose.HttpHandler

/-!
# Bodies handed to the handlers

Which bodies that `mg_http_handler` passes to the event handler lie in the receive buffer. The
length of a body is a number from the peer, converted to `size_t`, and the test that the message is
complete looks at the sum of this length and the length of the header block, which wraps. A sum that
wraps is smaller than the header block, so the test always passes and the handler gets a body that
ends far outside of the buffer. `bodies_inRange_iff` says that this is the only way: all bodies of a
run are in range exactly when no segment completes a message whose declared length wraps. The close
path, chunked bodies and the bodies of messages delivered twice are always in range. A chunked
message that is shorter than what was reassembled before stops a Debug build, and in a Release build
its declared length decides.
-/

namespace CppCode.Mongoose

open Library

/-- The body is a range of the receive buffer: its end, computed in `size_t`, is neither before its
begin nor after the bytes that are held. -/
def Delivery.InRange (platform : Platform) (delivery : Delivery) : Prop :=
  ∃ begin ∈ delivery.hm.body.p,
    begin ≤ platform.add begin delivery.hm.body.len ∧
      platform.add begin delivery.hm.body.len ≤ delivery.held.length

instance (platform : Platform) (delivery : Delivery) : Decidable (delivery.InRange platform) :=
  match body : delivery.hm.body.p with
  | none => isFalse (by simp [Delivery.InRange, body])
  | some begin =>
    decidable_of_iff (begin ≤ platform.add begin delivery.hm.body.len ∧
      platform.add begin delivery.hm.body.len ≤ delivery.held.length)
      (by simp [Delivery.InRange, body])

/-- Every body delivered so far is in range. -/
def HttpConn.Sound (platform : Platform) (nc : HttpConn) : Prop :=
  ∀ delivery ∈ nc.delivered, delivery.InRange platform

/-- The last `Content-Length` of a block of length `len` wraps the length of the message, and is
not what stands for an unknown length on a request without a body. -/
def Wraps (platform : Platform) (buf : Bytes) (len : Nat) (isReq : Bool) : Prop :=
  ∃ declared ∈ declaredLength buf (headersOf buf len isReq),
    2 ^ platform.bits ≤ len + platform.toSize declared ∧
      ¬(platform.toSize declared = platform.maxSize ∧ IsBodiless buf len isReq)

/-- The block is a request or a reply to upgrade to WebSocket. -/
def Upgrades (buf : Bytes) (len : Nat) (isReq : Bool) : Prop :=
  (findHeader buf (headersOf buf len isReq) (upgradeHeader isReq)).isSome = true

/-- The block announces a chunked body. -/
def Chunked (buf : Bytes) (len : Nat) (isReq : Bool) : Prop :=
  ∃ value ∈ findHeader buf (headersOf buf len isReq) (ascii "Transfer-Encoding"),
    mgVcasecmp buf value (ascii "chunked") = 0

/-- A chunked body has a complete chunk, or has lost the bytes reassembled earlier. -/
def Reassembles (platform : Platform) (nc : HttpConn) (len : Nat) (isReq : Bool) : Prop :=
  Chunked nc.recvMbuf len isReq ∧
    (HasChunk platform nc.recvMbuf len nc.chunkBodyLen ∨
      Lost platform (nc.stray platform) nc.recvMbuf len nc.chunkBodyLen)

/-- The buffer begins with a well-formed block whose declared length wraps, and nothing but that
length decides about the body. -/
def Overruns (platform : Platform) (nc : HttpConn) (isReq : Bool) : Prop :=
  let len := (mgHttpGetRequestLen nc.recvMbuf (toInt nc.recvMbuf.length)).toNat
  0 < len ∧ headersStart nc.recvMbuf len isReq ≠ none ∧ ¬Upgrades nc.recvMbuf len isReq ∧
    ¬Reassembles platform nc len isReq ∧ Wraps platform nc.recvMbuf len isReq

/-- A segment that arrives does not complete a message that overruns the buffer. -/
def Fits (platform : Platform) (isReq : Bool) (nc : HttpConn) : Action → Prop
  | .recv buf => nc.status = .http → nc.closeImmediately = false →
      ¬Overruns platform { nc with recvMbuf := mbufAppend platform nc.recvMbuf buf } isReq
  | .returns | .close => True

/-! ## One delivery -/

/-- A body behind the header block is in range exactly when its end is, without wrapping. -/
theorem inRange_iff {platform : Platform} {delivery : Delivery} {len : Nat}
    (body : delivery.hm.body.p = some len) (block : len ≤ delivery.held.length)
    (held : delivery.held.length < 2 ^ platform.bits)
    (word : delivery.hm.body.len < 2 ^ platform.bits) :
    delivery.InRange platform ↔ len + delivery.hm.body.len ≤ delivery.held.length := by
  have unfolded : delivery.InRange platform ↔
      len ≤ platform.add len delivery.hm.body.len ∧
        platform.add len delivery.hm.body.len ≤ delivery.held.length := by
    simp [Delivery.InRange, body]
  rw [unfolded]
  unfold Platform.add
  by_cases wraps : len + delivery.hm.body.len < 2 ^ platform.bits
  · rw [Nat.mod_eq_of_lt wraps]
    omega
  · rw [Nat.mod_eq_sub_mod (not_lt.mp wraps), Nat.mod_eq_of_lt (by omega)]
    omega

/-- The lengths of a block whose declared length wraps. -/
theorem framing_wraps {platform : Platform} {buf : Bytes} {len : Nat} {isReq : Bool}
    (wraps : Wraps platform buf len isReq) (block : len < 2 ^ platform.bits) :
    2 ^ platform.bits ≤ len + (framing platform buf len isReq).body ∧
      (framing platform buf len isReq).message < len := by
  obtain ⟨declared, found, large, other⟩ := wraps
  have word := platform.toSize_lt declared
  simp only [framing, Option.mem_def.mp found, declaredLengths, if_neg other]
  refine ⟨large, ?_⟩
  rw [Platform.add, Nat.mod_eq_sub_mod large, Nat.mod_eq_of_lt (by omega)]
  omega

/-- The lengths of any other block: the message is the block and the body, or has no known end. -/
theorem framing_fits {platform : Platform} {buf : Bytes} {len : Nat} {isReq : Bool}
    (fits : ¬Wraps platform buf len isReq) :
    (framing platform buf len isReq).message = len + (framing platform buf len isReq).body ∨
      (framing platform buf len isReq).message = platform.maxSize := by
  simp only [framing]
  split
  · exact .inl rfl
  · rename_i kept
    cases found : declaredLength buf (headersOf buf len isReq) with
    | none => exact .inr rfl
    | some declared =>
      rw [found] at kept
      have small : len + platform.toSize declared < 2 ^ platform.bits := by
        by_contra large
        exact fits ⟨declared, found, not_lt.mp large, kept⟩
      exact .inl (Nat.mod_eq_of_lt small)

/-- Lengths of a body fit in `size_t`. -/
theorem framing_word (platform : Platform) (buf : Bytes) (len : Nat) (isReq : Bool) :
    (framing platform buf len isReq).body < 2 ^ platform.bits := by
  have positive := Nat.two_pow_pos platform.bits
  simp only [framing]
  split
  · exact positive
  · cases declaredLength buf (headersOf buf len isReq) with
    | none => exact Nat.sub_lt positive Nat.one_pos
    | some declared => exact platform.toSize_lt declared

/-! ## One step -/

/-- A step that delivers nothing meets the condition, and one that delivers a body delivers it in
range exactly when it meets the condition. -/
inductive Delivers (platform : Platform) (cond : Prop) (before after : List Delivery) : Prop
  /-- Nothing is delivered. -/
  | nothing (same : after = before) (meets : cond)
  /-- A body is delivered. -/
  | body (delivery : Delivery) (one : after = before ++ [delivery])
      (exact : delivery.InRange platform ↔ cond)

/-- The tests at the end of the handler, for a message that may have been reassembled. -/
theorem dispatch_delivers {platform : Platform} {isReq : Bool} {nc : HttpConn} {reqLen : Int}
    {hm : HttpMessage} {cond : Prop} (positive : 0 < reqLen)
    (upgraded : (mgGetHttpHeader nc.recvMbuf hm (upgradeHeader isReq)).isSome = true → cond)
    (unfinished : nc.recvMbuf.length < hm.message.len → cond)
    (whole : ¬(mgGetHttpHeader nc.recvMbuf hm (upgradeHeader isReq)).isSome = true →
      hm.message.len ≤ nc.recvMbuf.length →
        ((⟨nc.recvMbuf, hm⟩ : Delivery).InRange platform ↔ cond)) :
    Delivers platform cond nc.delivered (dispatch isReq nc reqLen hm).delivered := by
  unfold dispatch
  rw [if_neg (by omega), if_neg (by omega)]
  split_ifs with upgrade complete
  · exact .nothing rfl (upgraded upgrade)
  · exact .body _ rfl (whole upgrade complete)
  · exact .nothing rfl (unfinished (not_le.mp complete))

/-- Without a parsed message nothing is delivered. -/
theorem dispatch_incomplete {isReq : Bool} {nc : HttpConn} {reqLen : Int} {hm : HttpMessage}
    (incomplete : reqLen ≤ 0) : (dispatch isReq nc reqLen hm).delivered = nc.delivered := by
  simp only [dispatch]
  split_ifs
  · rfl
  · rfl
  all_goals omega

/-- A message whose lengths are those of its block is delivered with a body in range unless it
wraps. -/
theorem dispatch_described {platform : Platform} {isReq : Bool} {nc : HttpConn} {len : Nat}
    {hm : HttpMessage} (positive : 0 < len) (block : len ≤ nc.recvMbuf.length)
    (heap : nc.recvMbuf.length ≤ platform.heap)
    (describes : hm.Describes platform nc.recvMbuf len isReq) :
    Delivers platform
      (¬(¬Upgrades nc.recvMbuf len isReq ∧ Wraps platform nc.recvMbuf len isReq))
      nc.delivered (dispatch isReq nc len hm).delivered := by
  have fits := platform.fits
  have header := describes.getHeader (upgradeHeader isReq)
  apply dispatch_delivers (by omega)
  · rintro upgraded ⟨other, -⟩
    rw [header] at upgraded
    exact other upgraded
  · rintro short ⟨-, wraps⟩
    have wrapped := (framing_wraps wraps (by omega)).2
    rw [describes.spans.message] at short
    simp only at short
    omega
  · intro other complete
    rw [header] at other
    have word := framing_word platform nc.recvMbuf len isReq
    rw [inRange_iff (by rw [describes.spans.body]) block (by simp only; omega)
      (by simp only [describes.spans.body]; exact word)]
    rw [describes.spans.message] at complete
    simp only [describes.spans.body] at complete ⊢
    constructor
    · rintro inside ⟨-, wraps⟩
      have wrapped := (framing_wraps wraps (by omega)).1
      omega
    · intro cond
      have kept : ¬Wraps platform nc.recvMbuf len isReq := fun wraps => cond ⟨other, wraps⟩
      rcases framing_fits kept with known | unknown
      · omega
      · -- an unknown length is larger than any buffer
        unfold Platform.maxSize at unknown
        omega

/-- Whether a described message is chunked. -/
theorem isChunked_iff {platform : Platform} {buf : Bytes} {len : Nat} {isReq : Bool}
    {hm : HttpMessage} (describes : hm.Describes platform buf len isReq) :
    isChunked buf hm = true ↔ Chunked buf len isReq := by
  unfold isChunked Chunked
  rw [describes.getHeader]
  cases findHeader buf (headersOf buf len isReq) (ascii "Transfer-Encoding") <;> simp

/-- What a parsed message delivers. -/
theorem handleParsed_delivers {platform : Platform} {isReq : Bool} {nc : HttpConn} {len : Nat}
    {hm : HttpMessage} (positive : 0 < len) (block : len ≤ nc.recvMbuf.length)
    (heap : nc.recvMbuf.length ≤ platform.heap)
    (describes : hm.Describes platform nc.recvMbuf len isReq) :
    Delivers platform
      (¬(¬Upgrades nc.recvMbuf len isReq ∧
        ¬Reassembles platform nc len isReq ∧ Wraps platform nc.recvMbuf len isReq))
      nc.delivered (handleParsed platform isReq nc len hm).delivered := by
  have fits := platform.fits
  have chunkedIff := isChunked_iff describes
  unfold handleParsed
  by_cases reassembles : Reassembles platform nc len isReq
  · have meets : ¬(¬Upgrades nc.recvMbuf len isReq ∧ ¬Reassembles platform nc len isReq ∧
        Wraps platform nc.recvMbuf len isReq) := fun bad => bad.2.1 reassembles
    rw [if_pos ⟨by omega, chunkedIff.mpr reassembles.1⟩, Int.toNat_natCast]
    cases handled : mgHandleChunked platform (nc.stray platform) nc.recvMbuf len nc.chunkBodyLen hm
      with
    | none => exact .nothing rfl meets
    | some result =>
      obtain ⟨recvMbuf, chunkBodyLen, after⟩ := result
      have chunk : HasChunk platform nc.recvMbuf len nc.chunkBodyLen := by
        rcases reassembles.2 with chunk | lost
        · exact chunk
        · rw [mgHandleChunked_lost lost] at handled
          contradiction
      obtain ⟨place, inside, shorter⟩ :=
        mgHandleChunked_inside block (by omega) chunk handled
      simp only [describes.spans.body] at place inside shorter
      have held : recvMbuf.length < 2 ^ platform.bits := by omega
      have word : after.body.len < 2 ^ platform.bits := by omega
      have range : (⟨recvMbuf, after⟩ : Delivery).InRange platform ↔
          len + after.body.len ≤ recvMbuf.length :=
        inRange_iff place (le_trans (Nat.le_add_right _ _) inside) held word
      exact @dispatch_delivers platform isReq { nc with recvMbuf, chunkBodyLen } len after _
        (Int.natCast_pos.mpr positive) (fun _ => meets) (fun _ => meets)
        fun _ _ => iff_of_true (range.mpr inside) meets
  · have same : Delivers platform
        (¬(¬Upgrades nc.recvMbuf len isReq ∧ ¬Reassembles platform nc len isReq ∧
          Wraps platform nc.recvMbuf len isReq))
        nc.delivered (dispatch isReq nc len hm).delivered := by
      have plain := dispatch_described positive block heap describes
      simpa only [reassembles, not_false_eq_true, true_and] using plain
    split_ifs with chunked
    · have handled :
          mgHandleChunked platform (nc.stray platform) nc.recvMbuf len nc.chunkBodyLen hm =
          some (nc.recvMbuf, nc.chunkBodyLen, hm) := by
        have coded := chunkedIff.mp chunked.2
        exact mgHandleChunked_none (fun chunk => reassembles ⟨coded, .inl chunk⟩)
          (fun lost => reassembles ⟨coded, .inr lost⟩) hm
      rw [Int.toNat_natCast, handled]
      exact same
    · exact same

/-- What a segment delivers. -/
theorem handleRecv_delivers {platform : Platform} {isReq : Bool} {nc : HttpConn}
    (heap : nc.recvMbuf.length ≤ platform.heap) :
    Delivers platform (¬Overruns platform nc isReq)
      nc.delivered (handleRecv platform isReq nc).delivered := by
  rw [handleRecv_eq]
  by_cases positive : 0 < (mgParseHttp platform nc.recvMbuf (toInt nc.recvMbuf.length) isReq).1
  · obtain ⟨length, describes⟩ := mgParseHttp_pos positive
    obtain ⟨complete, wellFormed⟩ := mgParseHttp_pos_iff.mp positive
    have block := mgHttpGetRequestLen_le (by rwa [length] at positive)
    have delivers := handleParsed_delivers complete block heap describes
    rw [Int.toNat_of_nonneg (by omega)] at delivers
    rw [length]
    simpa only [Overruns, complete, wellFormed, ne_eq, not_false_eq_true, true_and]
      using delivers
  · have meets : ¬Overruns platform nc isReq := fun bad =>
      positive (mgParseHttp_pos_iff.mpr ⟨bad.1, bad.2.1⟩)
    refine .nothing ?_ meets
    unfold handleParsed
    rw [if_neg fun both => positive both.1]
    exact dispatch_incomplete (not_lt.mp positive)

/-- What the close delivers is in range. -/
theorem handleClose_delivers {platform : Platform} {isReq : Bool} {nc : HttpConn}
    (heap : nc.recvMbuf.length ≤ platform.heap) :
    Delivers platform True nc.delivered (handleClose platform isReq nc).delivered := by
  have fits := platform.fits
  simp only [handleClose]
  split_ifs with whole
  · obtain ⟨length, describes⟩ := mgParseHttp_pos whole.2
    have block := mgHttpGetRequestLen_le (by rw [← length]; exact whole.2)
    refine .body _ rfl (iff_of_true ?_ trivial)
    have place := describes.spans.body
    rw [← length] at place block
    have held : nc.recvMbuf.length < 2 ^ platform.bits := by omega
    rw [inRange_iff (by simp only [closingMessage, place]) block held
      (by simp only [closingMessage]; omega)]
    simp only [closingMessage]
    omega
  · exact .nothing rfl trivial

/-- The bodies after a step are sound when those before are and the step meets the condition. -/
theorem Delivers.sound_iff {platform : Platform} {cond : Prop} {before after : List Delivery}
    (delivers : Delivers platform cond before after) :
    (∀ delivery ∈ after, delivery.InRange platform) ↔
      (∀ delivery ∈ before, delivery.InRange platform) ∧ cond := by
  cases delivers with
  | nothing same meets =>
    subst same
    exact (and_iff_left meets).symm
  | body delivery one exact' =>
    subst one
    simp only [List.mem_append, List.mem_singleton, or_imp, forall_and, forall_eq, exact']

/-- The receive buffer fits in the heap. -/
def HttpConn.Holds (platform : Platform) (nc : HttpConn) : Prop :=
  nc.recvMbuf.length ≤ platform.heap

/-- Appending keeps the buffer in the heap. -/
theorem mbufAppend_le {platform : Platform} {mbuf : Bytes} (heap : mbuf.length ≤ platform.heap)
    (buf : Bytes) : (mbufAppend platform mbuf buf).length ≤ platform.heap := by
  unfold mbufAppend
  split_ifs with grows
  · rw [List.length_append]
    exact grows
  · exact heap

/-- Removing does not make the buffer longer. -/
theorem mbufRemove_le (mbuf : Bytes) (n : Nat) : (mbufRemove mbuf n).length ≤ mbuf.length := by
  unfold mbufRemove
  split_ifs
  · rw [List.length_drop]
    omega
  · exact le_refl _

/-- The tests at the end of the handler do not make the buffer longer. -/
theorem dispatch_le (isReq : Bool) (nc : HttpConn) (reqLen : Int) (hm : HttpMessage) :
    (dispatch isReq nc reqLen hm).recvMbuf.length ≤ nc.recvMbuf.length := by
  simp only [dispatch]
  split_ifs
  · exact le_refl _
  · exact le_refl _
  · exact mbufRemove_le _ _
  · exact le_refl _
  · exact le_refl _

/-- Handling a segment does not make the buffer longer. -/
theorem handleRecv_le {platform : Platform} {isReq : Bool} {nc : HttpConn}
    (heap : nc.recvMbuf.length ≤ platform.heap) :
    (handleRecv platform isReq nc).recvMbuf.length ≤ nc.recvMbuf.length := by
  have fits := platform.fits
  rw [handleRecv_eq]
  unfold handleParsed
  split_ifs with chunked
  · have length := (mgParseHttp_pos chunked.1).1
    have block := mgHttpGetRequestLen_le (by rw [← length]; exact chunked.1)
    rw [← length] at block
    split
    · exact le_refl _
    · rename_i handled
      exact le_trans (dispatch_le _ _ _ _) (mgHandleChunked_shorter block (by omega) handled)
  · exact dispatch_le _ _ _ _

/-- What a step can do. -/
inductive Taken (platform : Platform) (isReq : Bool) (nc : HttpConn) : Action → HttpConn → Prop
  /-- A segment is handled. -/
  | handled (buf : Bytes) (http : nc.status = .http) (alive : nc.closeImmediately = false) :
    Taken platform isReq nc (.recv buf)
      (handleRecv platform isReq { nc with recvMbuf := mbufAppend platform nc.recvMbuf buf })
  /-- A segment is discarded, or it is for another protocol. -/
  | ignored (buf : Bytes) (idle : nc.status = .http → nc.closeImmediately = true) :
    Taken platform isReq nc (.recv buf) nc
  /-- A callback returns. -/
  | returned (recvMbuf : Bytes) (removals : List Nat)
      (shorter : recvMbuf.length ≤ nc.recvMbuf.length) :
    Taken platform isReq nc .returns { nc with recvMbuf, removals }
  /-- The connection is closed. -/
  | closed : Taken platform isReq nc .close (handleClose platform isReq nc)
  /-- The connection is closed when it is used for another protocol. -/
  | dropped : Taken platform isReq nc .close { nc with status := .closed }

/-- A step does one of these. -/
theorem step_taken {platform : Platform} {isReq : Bool} {nc next : HttpConn} {action : Action}
    (taken : step platform isReq nc action = some next) :
    Taken platform isReq nc action next := by
  cases action with
  | recv buf =>
    obtain ⟨io, bodyLen, status, closing, removals, delivered⟩ := nc
    simp only [step] at taken
    cases status with
    | http =>
      cases closing with
      | true =>
        obtain rfl := Option.some.inj taken
        exact .ignored buf fun _ => rfl
      | false =>
        rw [← Option.some.inj taken]
        exact .handled buf rfl rfl
    | websocket =>
      obtain rfl := Option.some.inj taken
      exact .ignored buf fun http => absurd http (by simp)
    | closed => simp at taken
    | stopped => simp at taken
  | returns =>
    simp only [step] at taken
    split at taken
    · simp at taken
    · simp at taken
    · obtain rfl := Option.some.inj taken
      exact .returned nc.recvMbuf _ (le_refl _)
    · obtain rfl := Option.some.inj taken
      exact .returned _ _ (mbufRemove_le _ _)
  | close =>
    simp only [step] at taken
    split at taken
    · obtain rfl := Option.some.inj taken
      exact .closed
    · obtain rfl := Option.some.inj taken
      exact .dropped
    · simp at taken
    · simp at taken

/-- Every step keeps the receive buffer in the heap. -/
theorem step_holds {platform : Platform} {isReq : Bool} {nc next : HttpConn} {action : Action}
    (holds : nc.Holds platform) (taken : step platform isReq nc action = some next) :
    next.Holds platform := by
  cases step_taken taken with
  | handled buf =>
    have grown := mbufAppend_le holds buf
    exact le_trans (handleRecv_le grown) grown
  | ignored => exact holds
  | returned recvMbuf removals shorter => exact le_trans shorter holds
  | closed =>
    unfold HttpConn.Holds
    simp only [handleClose]
    split_ifs <;> exact holds
  | dropped => exact holds

/-- A step keeps all bodies in range exactly when it meets the condition. -/
theorem step_sound {platform : Platform} {isReq : Bool} {nc next : HttpConn} {action : Action}
    (holds : nc.Holds platform) (taken : step platform isReq nc action = some next) :
    next.Sound platform ↔ nc.Sound platform ∧ Fits platform isReq nc action := by
  cases step_taken taken with
  | handled buf http alive =>
    have delivers : Delivers platform (Fits platform isReq nc (.recv buf)) nc.delivered
        (handleRecv platform isReq
          { nc with recvMbuf := mbufAppend platform nc.recvMbuf buf }).delivered := by
      have fits : Fits platform isReq nc (.recv buf) ↔
          ¬Overruns platform { nc with recvMbuf := mbufAppend platform nc.recvMbuf buf } isReq :=
        ⟨fun meets => meets http alive, fun meets _ _ => meets⟩
      rw [fits]
      exact @handleRecv_delivers platform isReq
        { nc with recvMbuf := mbufAppend platform nc.recvMbuf buf } (mbufAppend_le holds buf)
    exact delivers.sound_iff
  | ignored buf idle =>
    refine (and_iff_left fun http alive => ?_).symm
    rw [idle http] at alive
    cases alive
  | returned => exact (and_iff_left trivial).symm
  | closed => exact (handleClose_delivers holds).sound_iff
  | dropped => exact (and_iff_left trivial).symm

/-- In every run, the bodies handed to the event handler are all in range exactly when every
segment that arrives fits. -/
theorem bodies_inRange_iff {platform : Platform} {isReq : Bool} {actions : List Action}
    {nc : HttpConn} (reached : run (step platform isReq) {} actions = some nc) :
    nc.Sound platform ↔
      Along (step platform isReq) (Fits platform isReq) {} actions := by
  have start : HttpConn.Holds platform {} := Nat.zero_le _
  rw [run_iff_along (fun _ _ _ => step_holds) (fun _ _ _ => step_sound) start reached]
  exact and_iff_right (by simp [HttpConn.Sound])

/-- A request that arrives in two segments, and then the close. -/
def splitRequest : List Action :=
  [.recv (ascii "POST / HTTP/1.1\r\nContent-Le"), .recv (ascii "ngth: 2\r\n\r\nok"), .returns,
    .close]

/-- The request is delivered once, and its body is in range exactly because it fits. -/
theorem splitRequest_sound :
    ((run (step amd64 true) {} splitRequest).getD {}).delivered.length = 1 ∧
      (((run (step amd64 true) {} splitRequest).getD {}).Sound amd64 ↔
        Along (step amd64 true) (Fits amd64 true) {} splitRequest) :=
  ⟨by decide +kernel, bodies_inRange_iff (run_getD {} (by decide +kernel))⟩

/-- A request with a negative length. -/
def negativeRequest : Bytes := ascii "POST / HTTP/1.1\r\nContent-Length: -1\r\n\r\n"

/-- A reply with a negative length. -/
def negativeReply : Bytes := ascii "HTTP/1.1 200 OK\r\nContent-Length: -1\r\n\r\n"

/-- Both handlers get a body that is not in the buffer. -/
theorem negativeLength_overruns :
    (∃ nc, run (step amd64 true) {} [.recv negativeRequest] = some nc ∧ ¬nc.Sound amd64) ∧
      ∃ nc, run (step amd64 false) {} [.recv negativeReply] = some nc ∧ ¬nc.Sound amd64 := by
  refine ⟨⟨_, run_getD {} (by decide +kernel), ?_⟩, ⟨_, run_getD {} (by decide +kernel), ?_⟩⟩
  all_goals
    unfold HttpConn.Sound
    decide +kernel

end CppCode.Mongoose
