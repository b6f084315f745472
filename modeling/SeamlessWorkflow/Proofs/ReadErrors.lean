import SeamlessWorkflow.Proofs.DerivedViews

/-!
# Recorded read errors

A read error that is recorded for a pin stands as long as the pin is read at the checksum and the
celltypes that it was recorded for, and the pin then shows it. So a derivation finds the same when read
errors are forgotten that it has not shown: those that it erases itself, and all of them when no pin
shows an error.
-/

namespace SeamlessWorkflow

/-- The inputs of a transformer, with some recorded read errors. -/
def TransformerFields.inputs (fields : TransformerFields)
    (errors : AList (fun _ : String => PinReadError)) : TransformerFields :=
  { config := fields.config, pinProducers := fields.pinProducers, pinReadErrors := errors }

/-- A reading that is no recorded read error: it erases the one that is recorded, or shows none. -/
def PinReading.Unrecorded (reading : PinReading) : Prop :=
  reading.keepsReadError = false ∨ reading.state.error = none

/-- The read errors recorded for a pin stay, or they are forgotten while the pin does not show them. -/
def Spares (errors errors' : AList (fun _ : String => PinReadError)) (pin : String)
    (reading : PinReading) : Prop :=
  errors'.lookup pin = errors.lookup pin ∨ errors'.lookup pin = none ∧ reading.Unrecorded

section Reading

variable {env : Substrate} {v : View} {fields : TransformerFields}
  {errors errors' : AList (fun _ : String => PinReadError)}

theorem pinChecked_spared {pin : String} {celltype : Celltype} {input : PinInput} {checksum : Checksum}
    (h : Spares errors errors' pin
      (pinChecked env (fields.inputs errors) pin celltype input checksum)) :
    pinChecked env (fields.inputs errors') pin celltype input checksum =
      pinChecked env (fields.inputs errors) pin celltype input checksum := by
  rcases h with h | ⟨hnone, hunrecorded⟩
  · unfold pinChecked TransformerFields.inputs
    simp only [h]
  · unfold pinChecked TransformerFields.inputs at hunrecorded ⊢
    dsimp only at hunrecorded ⊢
    rw [hnone]
    generalize (errors.lookup pin).filter _ = standing at hunrecorded ⊢
    cases standing with
    | none => rfl
    | some recorded =>
      -- a standing error is kept and shown
      rcases hunrecorded with hkeeps | herror
      · cases hkeeps
      · cases herror

theorem Evaluated.bind_congr {α β : Type} (x : Evaluated α) {f f' : α → Evaluated β}
    (h : f' x.value = f x.value) : (x >>= f') = (x >>= f) := by
  show Evaluated.mk _ _ _ = Evaluated.mk _ _ _
  rw [h]

theorem pinReading_spared {incoming : List (Path × Edge)} {pin : String}
    (h : Spares errors errors' pin (pinReading env v (fields.inputs errors) incoming pin).value) :
    pinReading env v (fields.inputs errors') incoming pin =
      pinReading env v (fields.inputs errors) incoming pin := by
  have hconfig : ∀ errors, (fields.inputs errors).config = fields.config := fun _ => rfl
  unfold pinReading at h ⊢
  refine Evaluated.bind_congr (pinInput env v (fields.inputs errors) incoming pin) ?_
  rw [Evaluated.value_bind] at h
  generalize (pinInput env v (fields.inputs errors) incoming pin).value = read at h ⊢
  cases read with
  | inl reading => rfl
  | inr input =>
    simp only [hconfig] at h ⊢
    by_cases hnull : (env.isNull input.checksum && fields.config.optionalPins.contains pin) = true
    · rw [if_pos hnull, if_pos hnull]
    · rw [if_neg hnull] at h ⊢
      rw [if_neg hnull]
      generalize (if fields.config.compilation.isSome = true then none
        else env.pinNullError input.checksum (fields.config.celltypeOf pin) pin) = refused at h ⊢
      cases refused with
      | some e => rfl
      | none =>
        dsimp only at h ⊢
        by_cases hsame : input.celltype = fields.config.celltypeOf pin
        · rw [if_pos hsame] at h ⊢
          rw [if_pos hsame, pinChecked_spared h]
        · rw [if_neg hsame] at h ⊢
          rw [if_neg hsame]
          refine Evaluated.bind_congr _ ?_
          rw [Evaluated.value_bind] at h
          -- only a completed conversion meets a recorded error
          split at h
          · rw [pinChecked_spared h]
          · rfl

theorem mem_pinReadings {incoming : List (Path × Edge)} {entry : String × PinReading} :
    ∀ {pins : List String}, entry ∈ (pinReadings env v fields incoming pins).value →
      entry.2 = (pinReading env v fields incoming entry.1).value
  | [], h => absurd h List.not_mem_nil
  | pin :: pins, h => by
    unfold pinReadings at h
    rw [Evaluated.value_bind] at h
    split at h
    · rw [List.mem_singleton.mp h]
    · rcases List.mem_cons.mp h with rfl | hrest
      · rfl
      · exact mem_pinReadings hrest

variable (errors errors') in
theorem pinReadings_spared {incoming : List (Path × Edge)} (pins : List String)
    (h : ∀ entry ∈ (pinReadings env v (fields.inputs errors) incoming pins).value,
      Spares errors errors' entry.1 entry.2) :
    pinReadings env v (fields.inputs errors') incoming pins =
      pinReadings env v (fields.inputs errors) incoming pins := by
  induction pins with
  | nil => rfl
  | cons pin pins ih =>
    unfold pinReadings at h ⊢
    rw [Evaluated.value_bind] at h
    have hpin : Spares errors errors' pin (pinReading env v (fields.inputs errors) incoming pin).value := by
      split at h
      · exact h _ (List.mem_singleton_self _)
      · exact h (pin, _) List.mem_cons_self
    rw [pinReading_spared hpin]
    refine Evaluated.bind_congr _ ?_
    split at h
    · rename_i hfatal
      rw [if_pos hfatal, if_pos hfatal]
    · rename_i hfatal
      rw [if_neg hfatal, if_neg hfatal, ih fun entry hentry => h entry (List.mem_cons_of_mem _ hentry)]

variable (env v fields) in
/-- The pins of a reading are read one by one. -/
theorem transformerReading_pins (path : NodePath) :
    (transformerReading env v path fields).value.pins = [] ∨
      (transformerReading env v path fields).value.pins =
        (pinReadings env v fields (v.graph.incomingFor path) (sortPins fields.config.pins)).value := by
  unfold transformerReading
  split
  · exact .inl rfl
  · refine .inr ?_
    simp only [Evaluated.value_bind]
    split
    · rfl
    · split <;> rfl

theorem transformerReading_spared {path : NodePath}
    (h : ∀ entry ∈ (transformerReading env v path (fields.inputs errors)).value.pins,
      Spares errors errors' entry.1 entry.2) :
    transformerReading env v path (fields.inputs errors') =
      transformerReading env v path (fields.inputs errors) := by
  have hconfig : ∀ errors, (fields.inputs errors).config = fields.config := fun _ => rfl
  have hcode : ∀ errors, codeReading env v (fields.inputs errors) (v.graph.incomingFor path) =
      codeReading env v fields (v.graph.incomingFor path) := fun _ => rfl
  unfold transformerReading at h ⊢
  simp only [hconfig, hcode] at h ⊢
  generalize (if fields.config.compilation.isSome = true then env.stage1Error fields.config
    else none) = refused at h ⊢
  cases refused with
  | some e => rfl
  | none =>
    dsimp only at h ⊢
    rw [pinReadings_spared errors errors' _ fun entry hentry => h entry ?_]
    simp only [Evaluated.value_bind]
    split
    · exact hentry
    · split <;> exact hentry

end Reading

/-- A transformer is read by its inputs. -/
theorem transformerReading_inputs (env : Substrate) (v : View) (path : NodePath)
    (fields : TransformerFields) : transformerReading env v path (fields.inputs fields.pinReadErrors) =
      transformerReading env v path fields := by
  have hpins : ∀ (incoming : List (Path × Edge)) (pins : List String),
      pinReadings env v (fields.inputs fields.pinReadErrors) incoming pins =
        pinReadings env v fields incoming pins := by
    intro incoming pins
    induction pins with
    | nil => rfl
    | cons pin pins ih =>
      unfold pinReadings
      rw [ih]
      rfl
  unfold transformerReading
  simp only [hpins]
  rfl

/-! ### The read errors that a reading leaves -/

/-- The states of the pins, as a reading leaves them. -/
def shownPins (pins : List (String × PinReading)) : AList (fun _ : String => PinState) :=
  pins.foldl (fun states entry => states.insert entry.1 entry.2.state) ∅

/-- The recorded read errors, as a reading leaves them. -/
def keptReadErrors (pins : List (String × PinReading))
    (errors : AList (fun _ : String => PinReadError)) : AList (fun _ : String => PinReadError) :=
  pins.foldl (fun errors entry => if entry.2.keepsReadError then errors else errors.erase entry.1) errors

theorem lookup_shownPins {pin : String} {state : PinState} (pins : List (String × PinReading))
    (h : ∀ entry ∈ pins, entry.1 = pin → entry.2.state = state) (hmem : pin ∈ pins.map Prod.fst) :
    (shownPins pins).lookup pin = some state := by
  have loop : ∀ (pins : List (String × PinReading)) (states : AList (fun _ : String => PinState)),
      (∀ entry ∈ pins, entry.1 = pin → entry.2.state = state) →
      (pin ∈ pins.map Prod.fst ∨ states.lookup pin = some state) →
      (pins.foldl (fun states entry => states.insert entry.1 entry.2.state) states).lookup pin =
        some state := by
    intro pins
    induction pins with
    | nil => exact fun states _ hor => hor.resolve_left List.not_mem_nil
    | cons entry pins ih =>
      intro states hstate hor
      rw [List.foldl_cons]
      refine ih _ (fun other hother => hstate other (List.mem_cons_of_mem _ hother)) ?_
      by_cases hpin : entry.1 = pin
      · right
        rw [← hpin, AList.lookup_insert, hstate entry List.mem_cons_self hpin]
      · rw [AList.lookup_insert_ne (Ne.symm hpin)]
        refine hor.imp_left fun hm => ?_
        exact (List.mem_cons.mp hm).resolve_left (Ne.symm hpin)
  exact loop pins ∅ h (.inl hmem)

theorem lookup_keptReadErrors {pin : String} (pins : List (String × PinReading))
    (errors : AList (fun _ : String => PinReadError)) :
    (keptReadErrors pins errors).lookup pin =
      if pins.any fun entry => entry.1 = pin && !entry.2.keepsReadError then none
      else errors.lookup pin := by
  unfold keptReadErrors
  induction pins generalizing errors with
  | nil => rfl
  | cons entry pins ih =>
    rw [List.foldl_cons, ih, List.any_cons]
    by_cases hkeeps : entry.2.keepsReadError = true
    · rw [if_pos hkeeps, hkeeps, Bool.not_true, Bool.and_false, Bool.false_or]
    · rw [if_neg hkeeps]
      by_cases hpin : entry.1 = pin
      · simp [hkeeps, hpin]
      · rw [decide_eq_false hpin, Bool.false_and, Bool.false_or, AList.lookup_erase_ne (Ne.symm hpin)]

section Kept

variable {env : Substrate} {v : View} {path : NodePath} {fields : TransformerFields}

/-- The pins of one name are read alike. -/
theorem transformerReading_alike {entry : String × PinReading}
    (h : entry ∈ (transformerReading env v path fields).value.pins) :
    entry.2 = (pinReading env v fields (v.graph.incomingFor path) entry.1).value := by
  rcases transformerReading_pins env v fields path with hp | hp
  · rw [hp] at h
    cases h
  · rw [hp] at h
    exact mem_pinReadings h

/-- A derivation reads the same once it has erased the read errors that are overtaken. -/
theorem transformerReading_kept : transformerReading env v path (fields.inputs
      (keptReadErrors (transformerReading env v path fields).value.pins fields.pinReadErrors)) =
    transformerReading env v path fields := by
  conv => rhs; rw [← transformerReading_inputs]
  refine transformerReading_spared fun entry hentry => ?_
  rw [transformerReading_inputs] at hentry
  unfold Spares
  rw [lookup_keptReadErrors]
  split
  · rename_i herased
    refine .inr ⟨rfl, .inl ?_⟩
    obtain ⟨other, hother, hb⟩ := List.any_eq_true.mp herased
    obtain ⟨hpin, hkeeps⟩ := Bool.and_eq_true_iff.mp hb
    rw [transformerReading_alike hentry, ← of_decide_eq_true hpin, ← transformerReading_alike hother]
    exact (Bool.not_eq_true' _).mp hkeeps
  · exact .inl rfl

/-- A derivation reads the same once all read errors are forgotten, when no pin shows an error. -/
theorem transformerReading_forgotten
    (h : (shownPins (transformerReading env v path fields).value.pins).entries.filterMap
      (fun entry => entry.2.error) = []) :
    transformerReading env v path (fields.inputs ∅) = transformerReading env v path fields := by
  conv => rhs; rw [← transformerReading_inputs]
  refine transformerReading_spared fun entry hentry => .inr ⟨rfl, .inr ?_⟩
  rw [transformerReading_inputs] at hentry
  have hshown : (shownPins _).lookup entry.1 = some entry.2.state := lookup_shownPins _
    (fun other hother hpin => by
      rw [transformerReading_alike hother, hpin, ← transformerReading_alike hentry])
    (List.mem_map_of_mem hentry)
  cases herror : entry.2.state.error with
  | none => rfl
  | some e =>
    have hmem : e ∈ (shownPins (transformerReading env v path fields).value.pins).entries.filterMap
        (fun entry => entry.2.error) :=
      List.mem_filterMap.mpr ⟨⟨entry.1, entry.2.state⟩, AList.mem_lookup_iff.mp hshown, herror⟩
    rw [h] at hmem
    cases hmem

end Kept

end SeamlessWorkflow
