import SeamlessWorkflow.Library.Transition

/-!
# Conditional writes

A writer reads a value with its version, computes a new value, and writes it back on condition that
the version has not changed. When every change of the value comes with a new version, a write that is
accepted is one to the value as it stands.
-/

/-- A state with a value that has a version. -/
structure Versioned (σ γ : Type) where
  version : σ → Nat
  content : σ → γ

namespace Versioned

variable {σ γ : Type} {v : Versioned σ γ}

/-- A step that changes the value only along with its version. -/
structure Revises (v : Versioned σ γ) (s s' : σ) : Prop where
  version : v.version s ≤ v.version s'
  content : v.version s' = v.version s → v.content s' = v.content s

/-- What has been read with its version is out of date, or it is still there. -/
structure Holds (v : Versioned σ γ) (n : Nat) (c : γ) (s : σ) : Prop where
  version : n ≤ v.version s
  content : v.version s = n → v.content s = c

theorem Holds.revise {n : Nat} {c : γ} {s s' : σ} (h : v.Holds n c s) (hr : v.Revises s s') :
    v.Holds n c s' := by
  refine ⟨Nat.le_trans h.version hr.version, fun he => ?_⟩
  have hle := h.version
  have hstep := hr.version
  have hsame : v.version s = n := by omega
  rw [hr.content (by omega), h.content hsame]

end Versioned

/-! ## Serial orders -/

/-- A write: a function of the value that it finds, or a value. -/
inductive Write (γ : Type)
  | update (f : γ → γ)
  | overwrite (content : γ)

namespace Write

variable {σ γ : Type}

def apply (content : γ) : Write γ → γ
  | update f => f content
  | overwrite content => content

/-- Make the writes one after the other. -/
def replay (log : List (Write γ)) (content : γ) : γ := log.foldl apply content

/-- What the events of a run write, in order. -/
def logOf {E : Type} (step : σ → E → Option σ) (writes : σ → E → σ → List (Write γ)) :
    List E → σ → List (Write γ)
  | [], _ => []
  | event :: events, s =>
    match step s event with
    | some next => writes s event next ++ logOf step writes events next
    | none => []

/-- When each event makes its writes to the value as it stands, a run makes all of its writes in
order. -/
theorem replay_logOf {E : Type} {step : σ → E → Option σ} {condition : σ → E → Prop}
    {writes : σ → E → σ → List (Write γ)} {I : σ → Prop} (content : σ → γ)
    (hkeep : ∀ s event next, I s → condition s event → step s event = some next → I next)
    (hwrites : ∀ s event next, I s → condition s event → step s event = some next →
      content next = replay (writes s event next) (content s)) {last : σ} :
    ∀ (events : List E) {s : σ}, I s → Transition.Meets step condition events s →
      Transition.run step events s = some last →
        content last = replay (logOf step writes events s) (content s)
  | [], s, _, _, hrun => by
    obtain rfl := Option.some.inj hrun
    rfl
  | event :: events, s, hs, hmeets, hrun => by
    obtain ⟨next, hnext, hrun⟩ := Option.bind_eq_some_iff.mp hrun
    have ih := replay_logOf content hkeep hwrites events (hkeep s event next hs hmeets.1 hnext)
      (hmeets.2 next hnext) hrun
    unfold logOf
    rw [hnext, ih, hwrites s event next hs hmeets.1 hnext]
    exact List.foldl_append.symm

end Write
