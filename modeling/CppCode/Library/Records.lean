import Mathlib.Data.List.Infix
import Mathlib.Logic.Relation

/-!
# Records on a stream that arrives in segments

A sender puts records on a stream one behind the other, and the network cuts the stream where it
likes. A receiver keeps the bytes that it has not read, adds each segment to them and takes
records off their front until what is left is no whole record. `Intake` is such a receiver and
`Intake.Reads` says what its operations do for one sequence of records; `Reads.receive` concludes
that after any segments the receiver has taken exactly the records that have arrived whole. What
`drain` does on other bytes is bounded by `drain_ends`, and two receivers that differ in some states
only are compared by `resume_or_visits`.
-/

namespace CppCode.Library

variable {σ β ρ : Type*}

/-- Nothing, or a part of the next record that is not the whole of it. -/
def Unfinished (encode : ρ → List β) (rest : List ρ) (part : List β) : Prop :=
  part = [] ∨ ∃ record later missing,
    rest = record :: later ∧ encode record = part ++ missing ∧ missing ≠ []

/-- Of the next record a part is missing. -/
theorem Unfinished.missing {encode : ρ → List β} {record : ρ} {rest : List ρ} {part : List β}
    (unfinished : Unfinished encode (record :: rest) part) (present : encode record ≠ []) :
    ∃ missing, encode record = part ++ missing ∧ missing ≠ [] := by
  rcases unfinished with rfl | ⟨other, later, missing, same, cut, more⟩
  · exact ⟨encode record, rfl, present⟩
  · obtain ⟨rfl, -⟩ := List.cons.inj same
    exact ⟨missing, cut, more⟩

/-- The next record has not arrived whole. -/
theorem Unfinished.not_prefix {encode : ρ → List β} {record : ρ} {rest : List ρ} {part : List β}
    (unfinished : Unfinished encode (record :: rest) part) (present : encode record ≠ []) :
    ¬encode record <+: part := by
  obtain ⟨missing, cut, more⟩ := unfinished.missing present
  intro whole
  have shorter := whole.length_le
  have positive : 0 < missing.length := List.length_pos_iff.mpr more
  rw [cut, List.length_append] at shorter
  omega

/-- An unfinished record begins what follows. -/
theorem Unfinished.prefix_flatMap {encode : ρ → List β} {rest : List ρ} {part : List β}
    (unfinished : Unfinished encode rest part) : part <+: rest.flatMap encode := by
  rcases unfinished with rfl | ⟨record, later, missing, rfl, cut, -⟩
  · exact List.nil_prefix
  · rw [List.flatMap_cons, cut, List.append_assoc]
    exact List.prefix_append _ _

/-- The bytes that have arrived of a stream of records are whole records and an unfinished one. -/
theorem exists_whole {encode : ρ → List β} {records : List ρ} {arrived coming : List β}
    (stream : arrived ++ coming = records.flatMap encode) :
    ∃ now later part, records = now ++ later ∧ arrived = now.flatMap encode ++ part ∧
      Unfinished encode later part := by
  induction records generalizing arrived with
  | nil =>
    have empty : arrived = [] := (List.append_eq_nil_iff.mp stream).1
    exact ⟨[], [], [], rfl, by simpa using empty, .inl rfl⟩
  | cons record records ih =>
    rw [List.flatMap_cons] at stream
    by_cases whole : (encode record).length ≤ arrived.length
    · obtain ⟨more, rfl⟩ : encode record <+: arrived :=
        List.prefix_of_prefix_length_le ⟨_, rfl⟩ ⟨coming, stream⟩ whole
      rw [List.append_assoc, List.append_cancel_left_eq] at stream
      obtain ⟨now, later, part, rfl, rfl, unfinished⟩ := ih stream
      exact ⟨record :: now, later, part, rfl, by simp, unfinished⟩
    · have shorter : arrived.length ≤ (encode record).length := by omega
      obtain ⟨missing, split⟩ : arrived <+: encode record :=
        List.prefix_of_prefix_length_le ⟨coming, stream⟩ ⟨_, rfl⟩ shorter
      refine ⟨[], record :: records, arrived, rfl, rfl,
        .inr ⟨record, records, missing, rfl, split.symm, ?_⟩⟩
      rintro rfl
      rw [List.append_nil] at split
      exact whole (by rw [split])

/-- Take records while there are any; `none` when one cannot be taken or the fuel runs out. -/
def drain (take : σ → Option (Bool × σ)) : Nat → σ → Option σ
  | 0, _ => none
  | fuel + 1, state =>
    (take state).bind fun (taken, next) => if taken then drain take fuel next else some next

/-- When every record that is taken makes a state lighter, taking ends after at most as many records
as the state weighs: where nothing is left to take, or where a record cannot be taken. -/
theorem drain_ends {take : σ → Option (Bool × σ)} {inv : σ → Prop} {weight : σ → Nat}
    (lighter : ∀ state next, inv state → take state = some (true, next) →
      inv next ∧ weight next < weight state) {state : σ} {fuel : Nat} (start : inv state)
    (enough : weight state < fuel) :
    ∃ last, Relation.ReflTransGen (fun state next => take state = some (true, next)) state last ∧
      inv last ∧ (take last = none ∧ drain take fuel state = none ∨
        ∃ final, take last = some (false, final) ∧ drain take fuel state = some final) := by
  induction fuel generalizing state with
  | zero => omega
  | succ fuel ih =>
    cases took : take state with
    | none => exact ⟨state, .refl, start, .inl ⟨took, by rw [drain, took]; rfl⟩⟩
    | some result =>
      obtain ⟨taken, next⟩ := result
      cases taken with
      | false => exact ⟨state, .refl, start, .inr ⟨next, took, by rw [drain, took]; rfl⟩⟩
      | true =>
        obtain ⟨kept, less⟩ := lighter state next start took
        obtain ⟨last, steps, ends⟩ := ih kept (by omega)
        have same : drain take (fuel + 1) state = drain take fuel next := by
          rw [drain, took]
          rfl
        rw [same]
        exact ⟨last, .head took steps, ends⟩

/-- A receiver of records. -/
structure Intake (σ β : Type*) where
  /-- Add a segment to the unread bytes. -/
  push : σ → List β → σ
  /-- Take one record if a whole one is there. -/
  take : σ → Option (Bool × σ)
  /-- A bound on the records that can be there. -/
  fuel : σ → Nat

namespace Intake

/-- Add a segment and take all records that are whole. -/
def receive (intake : Intake σ β) (state : σ) (segment : List β) : Option σ :=
  drain intake.take (intake.fuel (intake.push state segment)) (intake.push state segment)

/-- The states in which a receiver tries to take a record, from one that it is about to look at and
while some segments arrive. -/
inductive Visits (intake : Intake σ β) : σ → List (List β) → σ → Prop
  /-- This one. -/
  | here (state : σ) (segments : List (List β)) : Visits intake state segments state
  /-- Those after a record that is taken. -/
  | taken {state next last : σ} {segments : List (List β)}
      (took : intake.take state = some (true, next)) (later : Visits intake next segments last) :
      Visits intake state segments last
  /-- Those after the next segment, when no record is left. -/
  | arrived {state next last : σ} {segment : List β} {segments : List (List β)}
      (waits : intake.take state = some (false, next))
      (later : Visits intake (intake.push next segment) segments last) :
      Visits intake state (segment :: segments) last

section
variable {intake other : Intake σ β} {bad : σ → Prop}

/-- Two receivers that take records alike except in some states, and go on alike when they have
taken all, receive the same, or the first comes to such a state. -/
theorem drain_or_visits (alike : ∀ state, intake.take state = other.take state ∨ bad state)
    {segments : List (List β)} (ends : ∀ state next, intake.take state = some (false, next) →
      segments.foldlM intake.receive next = segments.foldlM other.receive next ∨
        ∃ last, intake.Visits state segments last ∧ bad last) (count : Nat) (state : σ) :
    (drain intake.take count state).bind (segments.foldlM intake.receive ·) =
        (drain other.take count state).bind (segments.foldlM other.receive ·) ∨
      ∃ last, intake.Visits state segments last ∧ bad last := by
  induction count generalizing state with
  | zero => exact .inl rfl
  | succ count ih =>
    rcases alike state with same | wrong
    · cases took : intake.take state with
      | none => exact .inl (by simp [Library.drain, took, ← same])
      | some result =>
        obtain ⟨taken, next⟩ := result
        cases taken with
        | false =>
          refine (ends state next took).imp_left fun equal => ?_
          simpa [Library.drain, took, ← same] using equal
        | true =>
          rcases ih next with equal | ⟨last, visits, wrong⟩
          · exact .inl (by simpa [Library.drain, took, ← same] using equal)
          · exact .inr ⟨last, .taken took visits, wrong⟩
    · exact .inr ⟨state, .here state segments, wrong⟩

/-- Two receivers that take records alike except in some states receive the same, or the first comes
to such a state. -/
theorem resume_or_visits (push : other.push = intake.push) (fuel : other.fuel = intake.fuel)
    (alike : ∀ state, intake.take state = other.take state ∨ bad state)
    (segments : List (List β)) (count : Nat) (state : σ) :
    (drain intake.take count state).bind (segments.foldlM intake.receive ·) =
        (drain other.take count state).bind (segments.foldlM other.receive ·) ∨
      ∃ last, intake.Visits state segments last ∧ bad last := by
  induction segments generalizing count state with
  | nil => exact drain_or_visits alike (fun _ _ _ => .inl rfl) count state
  | cons segment segments ih =>
    refine drain_or_visits alike ?_ count state
    intro state next waits
    have after := ih (intake.fuel (intake.push next segment)) (intake.push next segment)
    rcases after with equal | ⟨last, visits, wrong⟩
    · left
      rw [List.foldlM_cons, List.foldlM_cons, receive, receive, push, fuel]
      exact equal
    · exact .inr ⟨last, .arrived waits visits, wrong⟩

end

/-- A receiver reads a sequence of records: `holds done unread state` describes the states in which
the records `done` have been taken and the bytes `unread` have not. -/
structure Reads (intake : Intake σ β) (encode : ρ → List β) (records : List ρ)
    (holds : List ρ → List β → σ → Prop) : Prop where
  /-- No record is empty. -/
  nonempty : ∀ record ∈ records, encode record ≠ []
  /-- A segment is added behind the unread bytes. -/
  pushed : ∀ done unread state segment, holds done unread state →
    holds done (unread ++ segment) (intake.push state segment)
  /-- A whole record is taken, when what is behind it comes from the records that follow. -/
  taken : ∀ done record later unread state, records = done ++ record :: later →
    unread <+: later.flatMap encode → holds done (encode record ++ unread) state →
    ∃ next, intake.take state = some (true, next) ∧ holds (done ++ [record]) unread next
  /-- A part of a record is left. -/
  waits : ∀ done later part state, records = done ++ later → Unfinished encode later part →
    holds done part state → intake.take state = some (false, state)
  /-- The bound counts the unread bytes. -/
  enough : ∀ done unread state, holds done unread state → unread.length < intake.fuel state

variable {intake : Intake σ β} {encode : ρ → List β} {records : List ρ}
  {holds : List ρ → List β → σ → Prop}

/-- A property that segments keep and each record extends holds besides. -/
theorem Reads.also (reads : intake.Reads encode records holds) {more : List ρ → σ → Prop}
    (pushed : ∀ done state segment, more done state → more done (intake.push state segment))
    (taken : ∀ done record later unread state next, records = done ++ record :: later →
      unread <+: later.flatMap encode → holds done (encode record ++ unread) state →
      more done state → intake.take state = some (true, next) → more (done ++ [record]) next) :
    intake.Reads encode records fun done unread state =>
      holds done unread state ∧ more done state where
  nonempty := reads.nonempty
  pushed done unread state segment held :=
    ⟨reads.pushed done unread state segment held.1, pushed done state segment held.2⟩
  taken done record later unread state split follows held := by
    obtain ⟨next, took, after⟩ := reads.taken done record later unread state split follows held.1
    exact ⟨next, took, after,
      taken done record later unread state next split follows held.1 held.2 took⟩
  waits done later part state split unfinished held :=
    reads.waits done later part state split unfinished held.1
  enough done unread state held := reads.enough done unread state held.1

/-- All whole records are taken off the front of the unread bytes. -/
theorem Reads.drain (reads : intake.Reads encode records holds) {now : List ρ} {part : List β}
    {fuel : Nat} {done later : List ρ} {state : σ} (split : records = done ++ (now ++ later))
    (unfinished : Unfinished encode later part)
    (held : holds done (now.flatMap encode ++ part) state) (enough : now.length < fuel) :
    ∃ next, Library.drain intake.take fuel state = some next ∧ holds (done ++ now) part next := by
  induction now generalizing done state fuel with
  | nil =>
    obtain ⟨fuel, rfl⟩ : ∃ more, fuel = more + 1 := ⟨fuel - 1, by omega⟩
    have waits := reads.waits done later part state split unfinished held
    exact ⟨state, by simp [Library.drain, waits], by simpa using held⟩
  | cons record now ih =>
    obtain ⟨fuel, rfl⟩ : ∃ more, fuel = more + 1 := ⟨fuel - 1, by omega⟩
    rw [List.flatMap_cons, List.append_assoc] at held
    have follows : now.flatMap encode ++ part <+: (now ++ later).flatMap encode := by
      rw [List.flatMap_append]
      exact (List.prefix_append_right_inj _).mpr unfinished.prefix_flatMap
    obtain ⟨next, taken, after⟩ :=
      reads.taken done record (now ++ later) _ state (by simpa using split) follows held
    have shorter : now.length < fuel := by simpa using enough
    obtain ⟨last, drained, final⟩ := ih (by simpa using split) after shorter
    refine ⟨last, ?_, by simpa using final⟩
    rw [Library.drain, taken, Option.bind_some]
    simpa using drained

/-- A sequence of records that are not empty is not longer than its bytes. -/
theorem length_le_flatMap {now : List ρ} (nonempty : ∀ record ∈ now, encode record ≠ []) :
    now.length ≤ (now.flatMap encode).length := by
  induction now with
  | nil => simp
  | cons record now ih =>
    have positive : 0 < (encode record).length :=
      List.length_pos_iff.mpr (nonempty record List.mem_cons_self)
    have rest := ih fun other member => nonempty other (List.mem_cons_of_mem record member)
    rw [List.flatMap_cons, List.length_append, List.length_cons]
    omega

/-- What is unread of a stream of records is whole records, which are taken, and an unfinished
one. -/
theorem Reads.settle (reads : intake.Reads encode records holds) {done later : List ρ}
    {unread coming : List β} {fuel : Nat} {state : σ} (split : records = done ++ later)
    (held : holds done unread state) (stream : unread ++ coming = later.flatMap encode)
    (enough : unread.length < fuel) :
    ∃ now rest left next, later = now ++ rest ∧ unread = now.flatMap encode ++ left ∧
      Unfinished encode rest left ∧ Library.drain intake.take fuel state = some next ∧
      holds (done ++ now) left next := by
  obtain ⟨now, rest, left, rfl, arrived, unfinished⟩ := exists_whole stream
  have few : now.length ≤ (now.flatMap encode).length := by
    refine length_le_flatMap fun record member => reads.nonempty record ?_
    rw [split]
    exact List.mem_append_right done (List.mem_append_left rest member)
  have bound : now.length < fuel := by
    rw [arrived, List.length_append] at enough
    omega
  rw [arrived] at held
  obtain ⟨next, drained, after⟩ := reads.drain split unfinished held bound
  exact ⟨now, rest, left, next, rfl, arrived, unfinished, drained, after⟩

/-- However the stream of the records is cut into segments, what has been taken after some of them
are the records that have arrived whole, and the rest of what has arrived is unread. -/
theorem Reads.receive_from (reads : intake.Reads encode records holds)
    {segments : List (List β)} {coming : List β} {done later : List ρ} {part : List β} {state : σ}
    (split : records = done ++ later) (held : holds done part state)
    (stream : part ++ segments.flatten ++ coming = later.flatMap encode)
    (unfinished : Unfinished encode later part) :
    ∃ now rest left final, later = now ++ rest ∧
      part ++ segments.flatten = now.flatMap encode ++ left ∧ Unfinished encode rest left ∧
      segments.foldlM intake.receive state = some final ∧ holds (done ++ now) left final := by
  induction segments generalizing done later part state with
  | nil => exact ⟨[], later, part, state, rfl, by simp, unfinished, rfl, by simpa using held⟩
  | cons segment segments ih =>
    rw [List.flatten_cons] at stream ⊢
    have cut : (part ++ segment) ++ (segments.flatten ++ coming) = later.flatMap encode := by
      simpa using stream
    have pushed := reads.pushed done part state segment held
    obtain ⟨first, rest, left, next, rfl, arrived, unfinished, drained, after⟩ :=
      reads.settle split pushed cut (reads.enough _ _ _ pushed)
    have remaining : left ++ segments.flatten ++ coming = rest.flatMap encode := by
      rw [arrived, List.flatMap_append] at cut
      simpa using cut
    obtain ⟨now, last, tail, final, rfl, joined, ends, received, held⟩ :=
      ih (by simpa using split) after remaining unfinished
    refine ⟨first ++ now, last, tail, final, by simp, ?_, ends, ?_, by simpa using held⟩
    · rw [← List.append_assoc, arrived, List.append_assoc, joined, List.flatMap_append,
        List.append_assoc]
    · rw [List.foldlM_cons, Intake.receive, drained]
      exact received

/-- The same from a receiver that has some of the stream and has yet to look at it. -/
theorem Reads.resume (reads : intake.Reads encode records holds) {segments : List (List β)}
    {unread coming : List β} {fuel : Nat} {state : σ} (held : holds [] unread state)
    (stream : unread ++ segments.flatten ++ coming = records.flatMap encode)
    (enough : unread.length < fuel) :
    ∃ done rest part final, records = done ++ rest ∧
      unread ++ segments.flatten = done.flatMap encode ++ part ∧ Unfinished encode rest part ∧
      (Library.drain intake.take fuel state).bind (segments.foldlM intake.receive ·) = some final ∧
      holds done part final := by
  have cut : unread ++ (segments.flatten ++ coming) = records.flatMap encode := by
    rw [← List.append_assoc, stream]
  obtain ⟨first, rest, left, next, rfl, rfl, unfinished, drained, after⟩ :=
    reads.settle rfl held cut enough
  have remaining : left ++ segments.flatten ++ coming = rest.flatMap encode := by
    rw [List.flatMap_append] at cut
    simpa using cut
  obtain ⟨now, last, tail, final, rfl, joined, ends, received, held⟩ :=
    reads.receive_from rfl after remaining unfinished
  refine ⟨first ++ now, last, tail, final, by simp, ?_, ends, ?_, held⟩
  · rw [List.append_assoc, joined, List.flatMap_append, List.append_assoc]
  · rw [drained]
    exact received

/-- The same from a receiver that has taken nothing. -/
theorem Reads.receive (reads : intake.Reads encode records holds) {segments : List (List β)}
    {coming : List β} {state : σ} (held : holds [] [] state)
    (stream : segments.flatten ++ coming = records.flatMap encode) :
    ∃ done rest part final, records = done ++ rest ∧
      segments.flatten = done.flatMap encode ++ part ∧ Unfinished encode rest part ∧
      segments.foldlM intake.receive state = some final ∧ holds done part final := by
  have start : [] ++ segments.flatten ++ coming = records.flatMap encode := by simpa using stream
  have nothing : records = [] ++ records := rfl
  simpa using reads.receive_from nothing held start (.inl rfl)

/-- A receiver of the whole stream has taken all records. -/
theorem Reads.receive_all (reads : intake.Reads encode records holds) {segments : List (List β)}
    {state : σ} (held : holds [] [] state)
    (stream : segments.flatten = records.flatMap encode) :
    ∃ final, segments.foldlM intake.receive state = some final ∧ holds records [] final := by
  have whole : segments.flatten ++ [] = records.flatMap encode := by simpa using stream
  obtain ⟨done, rest, part, final, rfl, arrived, unfinished, received, held⟩ :=
    reads.receive held whole
  rw [stream, List.flatMap_append, List.append_cancel_left_eq] at arrived
  have nothing : rest = [] ∧ part = [] := by
    cases rest with
    | nil => exact ⟨rfl, by simpa using arrived.symm⟩
    | cons record rest =>
      have present := reads.nonempty record (by simp)
      rw [List.flatMap_cons] at arrived
      exact absurd ⟨_, arrived⟩ (unfinished.not_prefix present)
  obtain ⟨rfl, rfl⟩ := nothing
  exact ⟨final, received, by simpa using held⟩

end Intake

end CppCode.Library
