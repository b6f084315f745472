/-!
# Transition systems

A system takes one event after the other. What holds at the start and is kept by every event that meets
a condition holds in every state that such events lead to.
-/

namespace Transition

variable {S E : Type} {step : S → E → Option S} {start : S}

/-- The states that events lead to which all meet a condition on the state before them. -/
inductive Reachable (step : S → E → Option S) (start : S) (condition : S → E → Prop) : S → Prop
  | start : Reachable step start condition start
  | step {s next : S} {event : E} :
      Reachable step start condition s → condition s event → step s event = some next →
      Reachable step start condition next

theorem Reachable.invariant {condition : S → E → Prop} {I : S → Prop} (hstart : I start)
    (hstep : ∀ s next event, I s → condition s event → step s event = some next → I next) {s : S}
    (h : Reachable step start condition s) : I s := by
  induction h with
  | start => exact hstart
  | step _ hc hs ih => exact hstep _ _ _ ih hc hs

/-- A stronger condition reaches fewer states. -/
theorem Reachable.mono {c d : S → E → Prop} (h : ∀ s event, c s event → d s event) {s : S}
    (hr : Reachable step start c s) : Reachable step start d s := by
  induction hr with
  | start => exact .start
  | step _ hc hs ih => exact .step ih (h _ _ hc) hs

/-- Take the events in turn. -/
def run (step : S → E → Option S) : List E → S → Option S
  | [], s => some s
  | event :: events, s => (step s event).bind (run step events)

theorem run_cons {events : List E} {event : E} {s next : S} (h : step s event = some next) :
    run step (event :: events) s = run step events next := by
  rw [run, h, Option.bind_some]

/-- Does every event meet the condition in the state before it? -/
def Meets (step : S → E → Option S) (condition : S → E → Prop) : List E → S → Prop
  | [], _ => True
  | event :: events, s => condition s event ∧ ∀ next ∈ step s event, Meets step condition events next

instance decidableMeets (step : S → E → Option S) (condition : S → E → Prop)
    [∀ s event, Decidable (condition s event)] :
    ∀ (events : List E) (s : S), Decidable (Meets step condition events s)
  | [], _ => instDecidableTrue
  | event :: events, s =>
    have : ∀ next, Decidable (Meets step condition events next) :=
      decidableMeets step condition events
    match h : step s event with
    | none => decidable_of_iff (condition s event) (by simp [Meets, h])
    | some next => decidable_of_iff (condition s event ∧ Meets step condition events next)
        (by simp [Meets, h])

theorem Reachable.of_run {condition : S → E → Prop} {events : List E} : ∀ {s : S},
    Reachable step start condition s → Meets step condition events s →
      (hr : (run step events s).isSome = true) →
        Reachable step start condition ((run step events s).get hr) := by
  induction events with
  | nil => exact fun h _ _ => h
  | cons event events ih =>
    intro s h hm hr
    unfold run at hr
    cases hs : step s event with
    | none =>
      rw [hs] at hr
      exact absurd hr (by simp)
    | some next =>
      have hr' : (run step events next).isSome = true := by rwa [hs] at hr
      have := ih (.step h hm.1 hs) (hm.2 next hs) hr'
      simpa only [run, hs, Option.bind_some] using this

end Transition
