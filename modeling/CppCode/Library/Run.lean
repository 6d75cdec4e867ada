import Mathlib.Data.List.Induction

/-!
# Runs of labelled partial steps

A system is a partial step function from a state and an action. A run executes a list of
actions and stops with `none` at the first one that is not enabled. Safety arguments need one
induction each: `run_invariant` carries an invariant over every run, `run_invariant_along`
carries it over the runs whose steps all meet a condition, `run_iff_along` says that a property
is kept exactly by those runs, `always_iff_along` that exactly those runs pass good states only,
and `run_invariant_history` carries a property that also speaks about the actions taken so far.
`along_iff` reads such a condition off the splits of the action list, which is how statements
about one moment of a run are made. `trace` is what the steps of a run show to an observer.
-/

namespace CppCode.Library

variable {σ α : Type*}

/-- The state after a list of actions, `none` when one of them is not enabled. -/
def run (step : σ → α → Option σ) : σ → List α → Option σ
  | state, [] => some state
  | state, action :: rest => (step state action).bind fun next => run step next rest

/-- Every step of the run meets the condition in the state it is taken from. -/
def Along (step : σ → α → Option σ) (cond : σ → α → Prop) : σ → List α → Prop
  | _, [] => True
  | state, action :: rest =>
    cond state action ∧ ∀ next, step state action = some next → Along step cond next rest

section
variable {step : σ → α → Option σ}

@[simp] theorem run_nil (state : σ) : run step state [] = some state := rfl

/-- A run of a first action and a rest takes the first step and runs the rest. -/
theorem run_cons_iff {state final : σ} {action : α} {rest : List α} :
    run step state (action :: rest) = some final ↔
      ∃ next, step state action = some next ∧ run step next rest = some final := by
  simp [run, Option.bind_eq_some_iff]

/-- Runs compose at any point of the action list. -/
theorem run_append (state : σ) (first second : List α) :
    run step state (first ++ second) =
      (run step state first).bind fun middle => run step middle second := by
  induction first generalizing state with
  | nil => rfl
  | cons action rest ih =>
    cases taken : step state action with
    | none => simp [run, taken]
    | some next => simpa [run, taken] using ih next

/-- A run over an appended list passes through the state between the parts. -/
theorem run_append_iff {state final : σ} {first second : List α} :
    run step state (first ++ second) = some final ↔
      ∃ middle, run step state first = some middle ∧ run step middle second = some final := by
  rw [run_append, Option.bind_eq_some_iff]

/-- A run of one more action is the run, then one step. -/
theorem run_concat {state middle : σ} {actions : List α} (action : α)
    (reached : run step state actions = some middle) :
    run step state (actions ++ [action]) = step middle action := by
  rw [run_append, reached]
  cases taken : step middle action <;> simp [run, taken]

/-- A run that is possible ends in the state that it computes. -/
theorem run_getD (default : σ) {state : σ} {actions : List α}
    (possible : (run step state actions).isSome = true) :
    run step state actions = some ((run step state actions).getD default) := by
  obtain ⟨final, reached⟩ := Option.isSome_iff_exists.mp possible
  rw [reached, Option.getD_some]

/-- An invariant that every step preserves holds after every run. -/
theorem run_invariant {inv : σ → Prop}
    (preserved : ∀ state action next, inv state → step state action = some next → inv next)
    {state final : σ} {actions : List α} (start : inv state)
    (reached : run step state actions = some final) : inv final := by
  induction actions generalizing state with
  | nil =>
    obtain rfl := Option.some.inj reached
    exact start
  | cons action rest ih =>
    obtain ⟨next, taken, remaining⟩ := run_cons_iff.mp reached
    exact ih (preserved state action next start taken) remaining

/-- An invariant preserved by the steps that meet a condition holds after every run whose steps
all meet it. -/
theorem run_invariant_along {inv : σ → Prop} {cond : σ → α → Prop}
    (preserved : ∀ state action next, inv state → cond state action →
      step state action = some next → inv next)
    {state final : σ} {actions : List α} (start : inv state)
    (along : Along step cond state actions)
    (reached : run step state actions = some final) : inv final := by
  induction actions generalizing state with
  | nil =>
    obtain rfl := Option.some.inj reached
    exact start
  | cons action rest ih =>
    obtain ⟨next, taken, remaining⟩ := run_cons_iff.mp reached
    exact ih (preserved state action next start along.1 taken) (along.2 next taken) remaining

/-- When a step establishes or keeps a property exactly under a condition, a run that starts with
the property ends with it exactly when all its steps meet the condition. -/
theorem run_iff_along {inv good : σ → Prop} {cond : σ → α → Prop}
    (preserved : ∀ state action next, inv state → step state action = some next → inv next)
    (exact : ∀ state action next, inv state → step state action = some next →
      (good next ↔ good state ∧ cond state action))
    {state final : σ} {actions : List α} (start : inv state)
    (reached : run step state actions = some final) :
    good final ↔ good state ∧ Along step cond state actions := by
  induction actions generalizing state with
  | nil =>
    obtain rfl := Option.some.inj reached
    simp [Along]
  | cons action rest ih =>
    obtain ⟨next, taken, remaining⟩ := run_cons_iff.mp reached
    rw [ih (preserved state action next start taken) remaining,
      exact state action next start taken, and_assoc, Along]
    refine and_congr_right fun _ => and_congr_right fun _ => ⟨?_, fun later => later next taken⟩
    intro along other again
    obtain rfl := Option.some.inj (taken.symm.trans again)
    exact along

/-- A property holds in every state that a run passes. -/
def Always (step : σ → α → Option σ) (good : σ → Prop) (state : σ) (actions : List α) : Prop :=
  ∀ before after middle, actions = before ++ after → run step state before = some middle →
    good middle

/-- When a step from a good state leads to a good state exactly under a condition, a run passes
good states only exactly when all its steps meet the condition. -/
theorem always_iff_along {inv good : σ → Prop} {cond : σ → α → Prop}
    (preserved : ∀ state action next, inv state → step state action = some next → inv next)
    (exact : ∀ state action next, inv state → good state → step state action = some next →
      (good next ↔ cond state action))
    {state final : σ} {actions : List α} (start : inv state) (fine : good state)
    (reached : run step state actions = some final) :
    Always step good state actions ↔ Along step cond state actions := by
  induction actions generalizing state with
  | nil =>
    refine iff_of_true ?_ trivial
    intro before after middle split ran
    obtain ⟨rfl, -⟩ := List.append_eq_nil_iff.mp split.symm
    obtain rfl := Option.some.inj ran
    exact fine
  | cons action rest ih =>
    obtain ⟨next, taken, remaining⟩ := run_cons_iff.mp reached
    have later := fun good => ih (preserved state action next start taken) good remaining
    constructor
    · intro always
      have here : good next :=
        always [action] rest next rfl (run_cons_iff.mpr ⟨next, taken, rfl⟩)
      refine ⟨(exact state action next start fine taken).mp here, fun other again => ?_⟩
      obtain rfl := Option.some.inj (taken.symm.trans again)
      refine (later here).mp fun before after middle split ran => ?_
      exact always (action :: before) after middle (by rw [split]; rfl)
        (run_cons_iff.mpr ⟨next, taken, ran⟩)
    · rintro ⟨meets, along⟩ before after middle split ran
      have here := (exact state action next start fine taken).mpr meets
      cases before with
      | nil =>
        obtain rfl := Option.some.inj ran
        exact fine
      | cons first before =>
        simp only [List.cons_append, List.cons.injEq] at split
        obtain ⟨rfl, split⟩ := split
        obtain ⟨other, again, ran⟩ := run_cons_iff.mp ran
        obtain rfl := Option.some.inj (taken.symm.trans again)
        exact (later here).mpr (along next taken) before after middle split ran

/-- A property of the actions taken so far and the state they reach holds after every run when
every step extends it. -/
theorem run_invariant_history {first : σ} {inv : List α → σ → Prop}
    (extended : ∀ before state action next, run step first before = some state →
      inv before state → step state action = some next → inv (before ++ [action]) next)
    (start : inv [] first) {final : σ} {actions : List α}
    (reached : run step first actions = some final) : inv actions final := by
  induction actions using List.reverseRecOn generalizing final with
  | nil =>
    obtain rfl := Option.some.inj reached
    exact start
  | append_singleton before action ih =>
    obtain ⟨middle, earlier, last⟩ := run_append_iff.mp reached
    obtain ⟨next, taken, ended⟩ := run_cons_iff.mp last
    obtain rfl := Option.some.inj ended
    exact extended before middle action next earlier (ih earlier) taken

/-- A property of all moments of a longer history is one of the earlier moments and of the
last. -/
theorem forall_moments_concat {moment : List α → α → Prop} {history : List α} {last : α} :
    (∀ before action after, history ++ [last] = before ++ action :: after →
        moment before action) ↔
      (∀ before action after, history = before ++ action :: after → moment before action) ∧
        moment history last := by
  constructor
  · intro every
    refine ⟨?_, every history last [] rfl⟩
    rintro before action after rfl
    exact every before action (after ++ [last]) (by simp)
  · rintro ⟨earlier, final⟩ before action after split
    rcases List.eq_nil_or_concat after with rfl | ⟨after, other, rfl⟩
    · obtain ⟨rfl, same⟩ := List.append_inj' split rfl
      obtain rfl := (List.cons.inj same).1
      exact final
    · rw [List.concat_eq_append] at split
      have shape : history ++ [last] = (before ++ action :: after) ++ [other] := by simp [split]
      exact earlier before action after (List.append_inj' shape rfl).1

/-- A condition holds along a run exactly when it holds at every action of the list, in the
state that the actions before it reach. -/
theorem along_iff {cond : σ → α → Prop} {state : σ} {actions : List α} :
    Along step cond state actions ↔
      ∀ before action after middle, actions = before ++ action :: after →
        run step state before = some middle → cond middle action := by
  induction actions generalizing state with
  | nil => simp [Along]
  | cons head rest ih =>
    constructor
    · rintro ⟨here, later⟩ before action after middle split reached
      cases before with
      | nil =>
        simp only [List.nil_append, List.cons.injEq] at split
        obtain ⟨rfl, rfl⟩ := split
        obtain rfl := Option.some.inj reached
        exact here
      | cons first before =>
        simp only [List.cons_append, List.cons.injEq] at split
        obtain ⟨rfl, tail⟩ := split
        obtain ⟨next, taken, remaining⟩ := run_cons_iff.mp reached
        exact (ih.mp (later next taken)) before action after middle tail remaining
    · intro every
      refine ⟨every [] head rest state rfl rfl, fun next taken => ih.mpr ?_⟩
      intro before action after middle split reached
      exact every (head :: before) action after middle (by rw [split]; rfl)
        (run_cons_iff.mpr ⟨next, taken, reached⟩)

instance decidableAlong {cond : σ → α → Prop}
    [decidable : ∀ state action, Decidable (cond state action)] :
    ∀ state actions, Decidable (Along step cond state actions)
  | _, [] => isTrue trivial
  | state, action :: rest =>
    match taken : step state action with
    | none => decidable_of_iff (cond state action) (by simp [Along, taken])
    | some next =>
      have : Decidable (Along step cond next rest) := decidableAlong next rest
      decidable_of_iff (cond state action ∧ Along step cond next rest) (by simp [Along, taken])

/-- A condition along an appended list holds along the first part and, from the state that it
reaches, along the second. -/
theorem along_append {cond : σ → α → Prop} {state : σ} {first second : List α} :
    Along step cond state (first ++ second) ↔
      Along step cond state first ∧
        ∀ middle, run step state first = some middle → Along step cond middle second := by
  induction first generalizing state with
  | nil => simp [Along]
  | cons action rest ih =>
    constructor
    · rintro ⟨here, later⟩
      refine ⟨⟨here, fun next taken => (ih.mp (later next taken)).1⟩, ?_⟩
      intro middle reached
      obtain ⟨next, taken, remaining⟩ := run_cons_iff.mp reached
      exact (ih.mp (later next taken)).2 middle remaining
    · rintro ⟨⟨here, later⟩, after⟩
      refine ⟨here, fun next taken => ih.mpr ⟨later next taken, ?_⟩⟩
      intro middle reached
      exact after middle (run_cons_iff.mpr ⟨next, taken, reached⟩)

/-- A condition that the actions meet in every state holds along every run of them. -/
theorem along_of_forall {cond : σ → α → Prop} {actions : List α}
    (always : ∀ action ∈ actions, ∀ state, cond state action) (state : σ) :
    Along step cond state actions := by
  rw [along_iff]
  rintro before action after middle rfl -
  exact always action (by simp) middle

/-! ## What a run shows -/

/-- What the steps of a run show, in order, to an observer of a state and the action taken in
it. -/
def trace {β : Type*} (step : σ → α → Option σ) (observe : σ → α → List β) :
    σ → List α → List β
  | _, [] => []
  | state, action :: rest =>
    observe state action ++ (step state action).elim [] fun next => trace step observe next rest

section
variable {β : Type*} {observe : σ → α → List β}

/-- One more step adds what it shows. -/
theorem trace_concat {state final : σ} {actions : List α} (action : α)
    (reached : run step state actions = some final) :
    trace step observe state (actions ++ [action]) =
      trace step observe state actions ++ observe final action := by
  induction actions generalizing state with
  | nil =>
    obtain rfl := Option.some.inj reached
    cases taken : step state action <;> simp [trace, taken]
  | cons first rest ih =>
    obtain ⟨next, taken, remaining⟩ := run_cons_iff.mp reached
    simp only [List.cons_append, trace, taken, Option.elim_some, ih remaining, List.append_assoc]

/-- What a run shows, it shows at one of its actions. -/
theorem mem_trace_iff {state : σ} {actions : List α} {shown : β} :
    shown ∈ trace step observe state actions ↔
      ∃ before action after middle, actions = before ++ action :: after ∧
        run step state before = some middle ∧ shown ∈ observe middle action := by
  induction actions generalizing state with
  | nil => simp [trace]
  | cons head rest ih =>
    rw [trace, List.mem_append]
    constructor
    · rintro (now | later)
      · exact ⟨[], head, rest, state, rfl, rfl, now⟩
      · cases taken : step state head with
        | none => simp [taken] at later
        | some next =>
          rw [taken, Option.elim_some] at later
          obtain ⟨before, action, after, middle, rfl, reached, observed⟩ := ih.mp later
          exact ⟨head :: before, action, after, middle, rfl,
            run_cons_iff.mpr ⟨next, taken, reached⟩, observed⟩
    · rintro ⟨before, action, after, middle, split, reached, observed⟩
      cases before with
      | nil =>
        simp only [List.nil_append, List.cons.injEq] at split
        obtain ⟨rfl, rfl⟩ := split
        obtain rfl := Option.some.inj reached
        exact .inl observed
      | cons first before =>
        simp only [List.cons_append, List.cons.injEq] at split
        obtain ⟨rfl, rfl⟩ := split
        obtain ⟨next, taken, remaining⟩ := run_cons_iff.mp reached
        right
        rw [taken, Option.elim_some]
        exact ih.mpr ⟨before, action, after, middle, rfl, remaining, observed⟩

end

end

end CppCode.Library
