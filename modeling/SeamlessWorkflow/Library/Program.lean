import Mathlib.Tactic.Common

/-!
# Programs with a state and exceptions

A program is a function of `EStateM ε σ α`: it returns a value or raises, and leaves a state in both
cases (an exception does not roll the state back). `Keeps I m` says that `m` ends in a state of `I`
whenever it starts in one, and `Triple P m Q E` is the two-exit Hoare triple. The rules follow the
shape of a program.
-/

namespace Program

variable {ε σ α β : Type}

/-- The state a run leaves behind. -/
def finalState : EStateM.Result ε σ α → σ
  | .ok _ s => s
  | .error _ s => s

theorem bind_ok {m : EStateM ε σ α} {f : α → EStateM ε σ β} {a : α} {s s' : σ} (h : m s = .ok a s') :
    (m >>= f) s = f a s' := by
  show EStateM.bind m f s = f a s'
  unfold EStateM.bind
  rw [h]

theorem bind_error {m : EStateM ε σ α} {f : α → EStateM ε σ β} {e : ε} {s s' : σ}
    (h : m s = .error e s') : (m >>= f) s = .error e s' := by
  show EStateM.bind m f s = _
  unfold EStateM.bind
  rw [h]

theorem tryCatch_ok {m : EStateM ε σ α} {handler : ε → EStateM ε σ α} {a : α} {s s' : σ}
    (h : m s = .ok a s') : tryCatch m handler s = .ok a s' := by
  show EStateM.tryCatch m handler s = _
  unfold EStateM.tryCatch
  rw [h]

theorem tryCatch_error {m : EStateM ε σ α} {handler : ε → EStateM ε σ α} {e : ε} {s s' : σ}
    (h : m s = .error e s') : tryCatch m handler s = handler e s' := by
  show EStateM.tryCatch m handler s = _
  unfold EStateM.tryCatch
  rw [h]
  rfl

/-- Started in `P`, the program returns in `Q` or raises in `E`. -/
def Triple (P : σ → Prop) (m : EStateM ε σ α) (Q : α → σ → Prop) (E : σ → Prop) : Prop :=
  ∀ s, P s → match m s with
    | .ok a s' => Q a s'
    | .error _ s' => E s'

/-- Every run from a state of `I` ends in a state of `I`. -/
def Keeps (I : σ → Prop) (m : EStateM ε σ α) : Prop :=
  Triple I m (fun _ => I) I

/-! ## Rules for triples -/

theorem Triple.conseq {P P' : σ → Prop} {m : EStateM ε σ α} {Q Q' : α → σ → Prop} {E E' : σ → Prop}
    (h : Triple P m Q E) (hP : ∀ s, P' s → P s) (hQ : ∀ a s, Q a s → Q' a s)
    (hE : ∀ s, E s → E' s) : Triple P' m Q' E' := by
  intro s hs
  have := h s (hP s hs)
  cases hm : m s with
  | ok a s' => rw [hm] at this; exact hQ a s' this
  | error e s' => rw [hm] at this; exact hE s' this

theorem Triple.and {P P' : σ → Prop} {m : EStateM ε σ α} {Q Q' : α → σ → Prop} {E E' : σ → Prop}
    (h : Triple P m Q E) (h' : Triple P' m Q' E') :
    Triple (fun s => P s ∧ P' s) m (fun a s => Q a s ∧ Q' a s) fun s => E s ∧ E' s := by
  intro s hs
  have h1 := h s hs.1
  have h2 := h' s hs.2
  cases hm : m s with
  | ok a s' => rw [hm] at h1 h2; exact ⟨h1, h2⟩
  | error e s' => rw [hm] at h1 h2; exact ⟨h1, h2⟩

theorem Triple.pure {P : σ → Prop} {Q : α → σ → Prop} {E : σ → Prop} {a : α}
    (h : ∀ s, P s → Q a s) : Triple P (pure a : EStateM ε σ α) Q E := h

theorem Triple.throw {P : σ → Prop} {Q : α → σ → Prop} {E : σ → Prop} {e : ε}
    (h : ∀ s, P s → E s) : Triple P (throw e : EStateM ε σ α) Q E := h

theorem Triple.modify {P : σ → Prop} {Q : Unit → σ → Prop} {E : σ → Prop} {f : σ → σ}
    (h : ∀ s, P s → Q () (f s)) : Triple P (modify f : EStateM ε σ Unit) Q E := h

theorem Triple.bind {P : σ → Prop} {m : EStateM ε σ α} {f : α → EStateM ε σ β}
    {R : α → σ → Prop} {Q : β → σ → Prop} {E : σ → Prop} (hm : Triple P m R E)
    (hf : ∀ a, Triple (R a) (f a) Q E) : Triple P (m >>= f) Q E := by
  intro s hs
  have h1 := hm s hs
  show match EStateM.bind m f s with | .ok b s' => Q b s' | .error _ s' => E s'
  unfold EStateM.bind
  cases hms : m s with
  | ok a s' =>
    rw [hms] at h1
    exact hf a s' h1
  | error e s' =>
    rw [hms] at h1
    exact h1

/-- Reading the state: the continuation may use the value read. -/
theorem Triple.get_bind {P : σ → Prop} {f : σ → EStateM ε σ β} {Q : β → σ → Prop} {E : σ → Prop}
    (h : ∀ s, Triple (fun s' => s' = s ∧ P s') (f s) Q E) : Triple P (get >>= f) Q E :=
  fun s hs => h s s ⟨rfl, hs⟩

theorem Triple.ite {P : σ → Prop} {c : Prop} [Decidable c] {m n : EStateM ε σ α}
    {Q : α → σ → Prop} {E : σ → Prop} (hm : c → Triple P m Q E) (hn : ¬ c → Triple P n Q E) :
    Triple P (if c then m else n) Q E := by
  by_cases hc : c
  · rw [if_pos hc]; exact hm hc
  · rw [if_neg hc]; exact hn hc

/-- A pure fact of the precondition can be assumed. -/
theorem Triple.assume {P : σ → Prop} {c : Prop} {m : EStateM ε σ α} {Q : α → σ → Prop}
    {E : σ → Prop} (hc : ∀ s, P s → c) (h : c → Triple P m Q E) : Triple P m Q E :=
  fun s hs => h (hc s hs) s hs

/-- A loop keeps what its body keeps. -/
theorem Triple.forM {I : σ → Prop} {E : σ → Prop} {f : α → EStateM ε σ Unit} :
    ∀ {l : List α}, (∀ a ∈ l, Triple I (f a) (fun _ => I) E) →
      Triple I (l.forM f) (fun _ => I) E := by
  intro l
  induction l with
  | nil => intro _; exact Triple.pure fun _ hs => hs
  | cons a l ih =>
    intro h
    exact Triple.bind (h a (List.mem_cons_self ..)) fun _ =>
      ih fun b hb => h b (List.mem_cons_of_mem _ hb)

/-- `try m catch h` with the state kept at the point of the exception. -/
theorem Triple.tryCatch {P : σ → Prop} {m : EStateM ε σ α} {h : ε → EStateM ε σ α}
    {Q : α → σ → Prop} {E F : σ → Prop} (hm : Triple P m Q F)
    (hh : ∀ e, Triple F (h e) Q E) : Triple P (tryCatch m h) Q E := by
  intro s hs
  have h1 := hm s hs
  show match EStateM.tryCatch m h s with | .ok b s' => Q b s' | .error _ s' => E s'
  unfold EStateM.tryCatch
  cases hms : m s with
  | ok a s' =>
    rw [hms] at h1
    exact h1
  | error e s' =>
    rw [hms] at h1
    exact hh e s' h1

/-! ## Programs that only look at the state -/

/-- The program leaves the state as it is, and what it returns satisfies `Q`. -/
def Inspects (m : EStateM ε σ α) (Q : α → σ → Prop) : Prop :=
  ∀ P : σ → Prop, Triple P m (fun a s => P s ∧ Q a s) P

theorem Inspects.pure {a : α} {Q : α → σ → Prop} (h : ∀ s, Q a s) :
    Inspects (pure a : EStateM ε σ α) Q := fun _ => Triple.pure fun s hs => ⟨hs, h s⟩

theorem Inspects.throw {e : ε} {Q : α → σ → Prop} : Inspects (throw e : EStateM ε σ α) Q :=
  fun _ => Triple.throw fun _ hs => hs

theorem Inspects.conseq {m : EStateM ε σ α} {Q Q' : α → σ → Prop} (h : Inspects m Q)
    (hQ : ∀ a s, Q a s → Q' a s) : Inspects m Q' :=
  fun P => (h P).conseq (fun _ hs => hs) (fun a s hs => ⟨hs.1, hQ a s hs.2⟩) fun _ hs => hs

theorem Inspects.bind {m : EStateM ε σ α} {f : α → EStateM ε σ β} {R : α → σ → Prop}
    {Q : β → σ → Prop} (hm : Inspects m R)
    (hf : ∀ a, Inspects (f a) fun b s => R a s → Q b s) : Inspects (m >>= f) Q := by
  intro P
  refine Triple.bind (hm P) fun a => ?_
  refine (hf a fun s => P s ∧ R a s).conseq (fun _ hs => hs) (fun b s hs => ?_) fun _ hs => hs.1
  exact ⟨hs.1.1, hs.2 hs.1.2⟩

theorem Inspects.get_bind {f : σ → EStateM ε σ α} {Q : α → σ → Prop}
    (h : ∀ s, Inspects (f s) fun a s' => s' = s → Q a s') : Inspects (get >>= f) Q := by
  intro P
  refine Triple.get_bind fun s => ?_
  refine (h s fun s' => s' = s ∧ P s').conseq (fun _ hs => hs) (fun a s' hs => ?_) fun _ hs => hs.2
  exact ⟨hs.1.2, hs.2 hs.1.1⟩

/-- A fact that a program has looked up can be used after it. -/
theorem Triple.inspect {P : σ → Prop} {m : EStateM ε σ α} {f : α → EStateM ε σ β}
    {R : α → σ → Prop} {Q : β → σ → Prop} {E : σ → Prop} (hm : Inspects m R)
    (hE : ∀ s, P s → E s) (hf : ∀ a, Triple (fun s => P s ∧ R a s) (f a) Q E) :
    Triple P (m >>= f) Q E :=
  Triple.bind ((hm P).conseq (fun _ hs => hs) (fun _ _ hs => hs) hE) hf

/-- A step that keeps the precondition is followed by the rest. -/
theorem Triple.bind_keeps {P : σ → Prop} {m : EStateM ε σ α} {f : α → EStateM ε σ β}
    {Q : β → σ → Prop} {E : σ → Prop} (hm : Keeps P m) (hE : ∀ s, P s → E s)
    (hf : ∀ a, Triple P (f a) Q E) : Triple P (m >>= f) Q E :=
  Triple.bind (hm.conseq (fun _ hs => hs) (fun _ _ hs => hs) hE) hf

/-! ## Rules for invariants -/

theorem Keeps.final {I : σ → Prop} {m : EStateM ε σ α} (h : Keeps I m) {s : σ} (hs : I s) :
    I (finalState (m s)) := by
  have := h s hs
  cases hm : m s with
  | ok a s' => rw [hm] at this; exact this
  | error e s' => rw [hm] at this; exact this

/-- A program whose final state is always in `I`. -/
theorem Triple.of_final {P I : σ → Prop} {m : EStateM ε σ α}
    (h : ∀ s, P s → I (finalState (m s))) : Triple P m (fun _ => I) I := by
  intro s hs
  have := h s hs
  cases hm : m s with
  | ok a s' => rw [hm] at this; exact this
  | error e s' => rw [hm] at this; exact this

theorem Keeps.pure {I : σ → Prop} {a : α} : Keeps I (pure a : EStateM ε σ α) :=
  Triple.pure fun _ hs => hs

theorem Keeps.throw {I : σ → Prop} {e : ε} : Keeps I (throw e : EStateM ε σ α) :=
  Triple.throw fun _ hs => hs

theorem Keeps.get {I : σ → Prop} : Keeps I (get : EStateM ε σ σ) := fun _ hs => hs

theorem Keeps.modify {I : σ → Prop} {f : σ → σ} (h : ∀ s, I s → I (f s)) :
    Keeps I (modify f : EStateM ε σ Unit) := Triple.modify h

theorem Keeps.bind {I : σ → Prop} {m : EStateM ε σ α} {f : α → EStateM ε σ β} (hm : Keeps I m)
    (hf : ∀ a, Keeps I (f a)) : Keeps I (m >>= f) := Triple.bind hm hf

theorem Keeps.ite {I : σ → Prop} {c : Prop} [Decidable c] {m n : EStateM ε σ α} (hm : Keeps I m)
    (hn : Keeps I n) : Keeps I (if c then m else n) := Triple.ite (fun _ => hm) (fun _ => hn)

theorem Keeps.forM {I : σ → Prop} {f : α → EStateM ε σ Unit} {l : List α}
    (h : ∀ a ∈ l, Keeps I (f a)) : Keeps I (l.forM f) := Triple.forM h

theorem Inspects.keeps {I : σ → Prop} {m : EStateM ε σ α} {Q : α → σ → Prop} (h : Inspects m Q) :
    Keeps I m := (h I).conseq (fun _ hs => hs) (fun _ _ hs => hs.1) fun _ hs => hs

theorem Keeps.tryCatch {I : σ → Prop} {m : EStateM ε σ α} {h : ε → EStateM ε σ α}
    (hm : Keeps I m) (hh : ∀ e, Keeps I (h e)) : Keeps I (tryCatch m h) := Triple.tryCatch hm hh

end Program
