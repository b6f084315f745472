import SeamlessWorkflow.Attachments.Widget
import SeamlessWorkflow.Proofs.ExchangeTurns

/-!
# Edits and deliveries

The driver counts an edit together with its fingerprint, so a delivery that expects the present
fingerprint was dispatched by a session that knew of every edit counted since. One that expects no
fingerprint is compared with nothing.
-/

namespace SeamlessWorkflow

namespace Mount

open Transport

/-! ## What the driver counts -/

/-- The driver has gone on, and has counted at least one fingerprint for each edit it has heard of. -/
structure WidgetDriver.Advances (d d' : WidgetDriver) : Prop where
  edits : d.edits ≤ d'.edits
  counted : d'.heard + d.fingerprint ≤ d'.fingerprint + d.heard
  heard : d.heard ≤ d.edits → d'.heard ≤ d'.edits

/-- The driver has gone on from where something was told. -/
structure Basis.Before (d : WidgetDriver) (b : Basis) : Prop where
  edits : b.edits ≤ d.edits
  heard : b.heard ≤ b.edits
  counted : d.heard + b.fingerprint ≤ d.fingerprint + b.heard

/-- What is told names the fingerprint of its basis, if it names one. -/
def Basis.Names (b : Basis) (fingerprint : Option Nat) : Prop :=
  ∀ n, fingerprint = some n → n = b.fingerprint

theorem Basis.Before.mono {d d' : WidgetDriver} {b : Basis} (h : b.Before d) (hadv : d.Advances d') :
    b.Before d' := by
  obtain ⟨hedits, hheard, hcounted⟩ := h
  obtain ⟨hedits', hcounted', -⟩ := hadv
  exact ⟨by omega, hheard, by omega⟩

def WidgetReport.fingerprint : WidgetReport → Option Nat
  | .observed o => o.fingerprint
  | .delivered ack => ack.fingerprint
  | .cut _ _ => none

structure WidgetMessage.Sound (d : WidgetDriver) (m : WidgetMessage) : Prop where
  before : m.basis.Before d
  names : m.basis.Names m.report.fingerprint

namespace WidgetDriver

variable {d d' : WidgetDriver}

/-- Only the fingerprint has moved. -/
theorem Advances.of_le (hedits : d'.edits = d.edits) (hheard : d'.heard = d.heard)
    (hfingerprint : d.fingerprint ≤ d'.fingerprint) : d.Advances d' := by
  refine ⟨by omega, by omega, fun h => ?_⟩
  rw [hheard, hedits]
  exact h

theorem Advances.refl (d : WidgetDriver) : d.Advances d := .of_le rfl rfl (Nat.le_refl _)

/-- The driver does something, and tells this. -/
structure Does (d d' : WidgetDriver) (told : List WidgetMessage) : Prop where
  advances : d.Advances d'
  sound : d.heard ≤ d.edits → ∀ m ∈ told, m.Sound d'

theorem basis_before (h : d.heard ≤ d.edits) : d.basis.Before d :=
  ⟨Nat.le_refl _, h, Nat.le_of_eq (Nat.add_comm ..)⟩

/-- A message of the driver, where the driver has not counted anything more. -/
theorem sound_of_basis {b : Basis} {report : WidgetReport} (h : d.heard ≤ d.edits) (hb : b = d.basis)
    (hnames : b.Names report.fingerprint) : WidgetMessage.Sound d ⟨report, b⟩ := by
  subst hb
  exact ⟨basis_before h, hnames⟩

theorem observation_names (d : WidgetDriver) : d.basis.Names d.observation.fingerprint := by
  intro n hn
  unfold observation at hn
  split at hn
  · cases hn
  · cases hn
    rfl
  · cases hn
    rfl

theorem observation_checksum (d : WidgetDriver) : d.observation.checksum = d.value.side := by
  unfold observation
  cases d.value <;> rfl

theorem observe_does (d : WidgetDriver) : Does d d.observe.1 [d.observe.2] := by
  refine ⟨.of_le rfl rfl (Nat.le_refl _), fun h m hm => ?_⟩
  rw [List.mem_singleton.mp hm]
  exact sound_of_basis h rfl (observation_names _)

/-- Flags and the timer do not count. -/
theorem Does.of_counters {told : List WidgetMessage} {d₁ : WidgetDriver} (h : Does d₁ d' told)
    (hedits : d₁.edits = d.edits) (hheard : d₁.heard = d.heard)
    (hfingerprint : d₁.fingerprint = d.fingerprint) : Does d d' told := by
  obtain ⟨⟨hadvEdits, hadvCounted, hadvHeard⟩, hsound⟩ := h
  rw [hedits] at hadvEdits hadvHeard hsound
  rw [hheard, hfingerprint] at hadvCounted
  rw [hheard] at hadvHeard hsound
  exact ⟨⟨hadvEdits, hadvCounted, hadvHeard⟩, hsound⟩

theorem does_nothing (d : WidgetDriver) : Does d d [] :=
  ⟨.refl d, fun _ _ hm => absurd hm List.not_mem_nil⟩

theorem changed_advances (hlt : d.heard < d.edits) : d.Advances d.changed := by
  unfold changed
  split
  · exact .refl d
  · refine ⟨Nat.le_refl _, ?_, fun _ => hlt⟩
    dsimp only
    omega

theorem debounced_advances (generation : Nat) (d : WidgetDriver) :
    d.Advances (d.debounced generation).1 := by
  unfold debounced
  split
  · exact .refl d
  · exact .of_le rfl rfl (Nat.le_refl _)

theorem read_does (generation : Option Nat) (d : WidgetDriver) :
    Does d (d.read generation).1 (d.read generation).2 := by
  unfold read
  split
  · exact does_nothing d
  · split
    · exact does_nothing d
    · exact (observe_does _).of_counters rfl rfl rfl

theorem cut_does (id : Nat) (d : WidgetDriver) : Does d (d.cut id).1 (d.cut id).2 := by
  unfold cut
  dsimp only
  split
  · exact (does_nothing _).of_counters rfl rfl rfl
  · refine ⟨.of_le rfl rfl (Nat.le_refl _), fun h m hm => ?_⟩
    rcases List.mem_cons.mp hm with rfl | hm
    · exact sound_of_basis h rfl (observation_names _)
    · rw [List.mem_singleton.mp hm]
      exact sound_of_basis h rfl fun n hn => nomatch hn

theorem fail_does (delivery : Delivery Nat) (reason : String) (d : WidgetDriver) :
    Does d (d.fail delivery reason).2.1 (d.fail delivery reason).2.2 := by
  refine ⟨.refl d, fun h m hm => ?_⟩
  rw [List.mem_singleton.mp hm]
  exact sound_of_basis h rfl fun n hn => nomatch hn

/-- An overwritten widget has the fingerprint that the acknowledgement names. -/
theorem overwrite_does (mode : Mode) (delivery : Delivery Nat) (setting : Setting)
    (d : WidgetDriver) :
    Does d (d.overwrite mode delivery setting).2.1 (d.overwrite mode delivery setting).2.2 := by
  have hcounted : d.fingerprint ≤ if setting.notified then d.fingerprint + 1 else d.fingerprint := by
    split <;> omega
  unfold overwrite
  dsimp only
  split
  · exact (fail_does ..).of_counters rfl rfl rfl
  · split
    · refine ⟨.of_le rfl rfl hcounted, fun h m hm => ?_⟩
      rcases List.mem_cons.mp hm with rfl | hm
      · exact sound_of_basis h rfl fun n hn => (Option.some.inj hn).symm
      · rw [List.mem_singleton.mp hm]
        exact sound_of_basis h rfl (observation_names _)
    · refine ⟨.of_le rfl rfl hcounted, fun h m hm => ?_⟩
      rw [List.mem_singleton.mp hm]
      exact sound_of_basis h rfl fun n hn => (Option.some.inj hn).symm

theorem write_does (mode : Mode) (delivery : Delivery Nat) (setting : Except String Setting)
    (d : WidgetDriver) :
    Does d (d.write mode delivery setting).2.1 (d.write mode delivery setting).2.2 := by
  unfold write
  split
  · exact fail_does ..
  · split
    · exact fail_does ..
    · split
      · refine ⟨.of_le rfl rfl (Nat.le_refl _), fun h m hm => ?_⟩
        rcases List.mem_cons.mp hm with rfl | hm
        · exact sound_of_basis h rfl (observation_names _)
        · rw [List.mem_singleton.mp hm]
          exact sound_of_basis h rfl fun n hn => nomatch hn
      · split
        · refine ⟨.of_le rfl rfl (Nat.le_refl _), fun h m hm => ?_⟩
          rcases List.mem_cons.mp hm with rfl | hm
          · exact sound_of_basis h rfl fun n hn => nomatch hn
          · rw [List.mem_singleton.mp hm]
            exact sound_of_basis h rfl (observation_names _)
        · exact overwrite_does ..

end WidgetDriver

/-! ## What the driver does with a delivery -/

/-- A delivery is heeded: the edits made since its session knew of the widget are not overwritten. -/
structure Execution.Spares (e : Execution) : Prop where
  written : e.outcome = .written → e.edits = e.basis.edits
  edited : e.edits ≠ e.basis.edits → e.outcome = .conflict
  kept : e.outcome = .conflict → e.after = e.before ∧
    ∃ m ∈ e.told, ∃ o, m.report = .observed o ∧ o.checksum = e.before.side

/-- What the driver relies on when it carries out a delivery. -/
structure Timely (delivery : Delivery Nat) (basis : Basis) (setting : Except String Setting)
    (d : WidgetDriver) : Prop where
  /-- If an edit has been made since, the value of the delivery is resolved and the session is open. -/
  resolved : d.edits = basis.edits ∨ (setting.isOk = true ∧ d.closed = false)
  /-- No edit made since waits for its callback, unless the driver knows already of another one. -/
  heard : d.heard = d.edits ∨ d.edits = basis.edits ∨ d.pendingChange = true ∨
    delivery.expectedFingerprint.any (· != d.fingerprint) = true
  /-- A delivery that expects no fingerprint finds an edit pending, or the fingerprint of its basis. -/
  counted : delivery.expectedFingerprint = none → d.pendingChange = true ∨
    d.fingerprint = basis.fingerprint

namespace WidgetDriver

variable {d : WidgetDriver} {mode : Mode} {delivery : Delivery Nat} {basis : Basis}

theorem overwrite_outcome (mode : Mode) (delivery : Delivery Nat) (setting : Setting)
    (d : WidgetDriver) : (d.overwrite mode delivery setting).1 ≠ .conflict := by
  unfold overwrite
  dsimp only
  split
  · exact fun h => nomatch h
  · split
    · exact fun h => nomatch h
    · exact fun h => nomatch h

/-- Where the driver comes to overwrite the widget, no edit has been made since. -/
theorem edits_eq {setting : Except String Setting} (htimely : Timely delivery basis setting d)
    (hbasis : basis.Before d) (hnames : basis.Names delivery.expectedFingerprint)
    (hpending : d.pendingChange = false)
    (hexpected : delivery.expectedFingerprint.any (· != d.fingerprint) = false) :
    d.edits = basis.edits := by
  have hfingerprint : d.fingerprint = basis.fingerprint := by
    cases hdelivery : delivery.expectedFingerprint with
    | none =>
      rcases htimely.counted hdelivery with hor | heq
      · rw [hpending] at hor
        cases hor
      · exact heq
    | some n =>
      rw [hdelivery] at hexpected
      have hn : n = d.fingerprint := by simpa using hexpected
      rw [← hn]
      exact hnames n hdelivery
  obtain ⟨hedits, hheard, hcounted⟩ := hbasis
  rcases htimely.heard with hall | heq | hor | hor
  · omega
  · exact heq
  · rw [hpending] at hor
    cases hor
  · rw [hexpected] at hor
    cases hor

theorem write_spares {setting : Except String Setting} (htimely : Timely delivery basis setting d)
    (hbasis : basis.Before d) (hnames : basis.Names delivery.expectedFingerprint) :
    Execution.Spares
      { delivery, basis, edits := d.edits, outcome := (d.write mode delivery setting).1
        before := d.value, after := (d.write mode delivery setting).2.1.value
        told := (d.write mode delivery setting).2.2 } := by
  unfold write
  split
  · rename_i reason
    refine ⟨fun h => (nomatch h), fun hne => ?_, fun h => (nomatch h)⟩
    rcases htimely.resolved with heq | ⟨hok, -⟩
    · exact absurd heq hne
    · cases hok
  · split
    · rename_i hclosed
      refine ⟨fun h => (nomatch h), fun hne => ?_, fun h => (nomatch h)⟩
      rcases htimely.resolved with heq | ⟨-, hopen⟩
      · exact absurd heq hne
      · rw [hopen] at hclosed
        cases hclosed
    · split
      · refine ⟨fun h => (nomatch h), fun _ => rfl, fun _ => ⟨rfl, ?_⟩⟩
        exact ⟨_, List.mem_cons_self .., _, rfl, observation_checksum _⟩
      · rename_i hpending
        split
        · refine ⟨fun h => (nomatch h), fun _ => rfl, fun _ => ⟨rfl, ?_⟩⟩
          exact ⟨_, List.mem_cons_of_mem _ (List.mem_cons_self ..), _, rfl, observation_checksum _⟩
        · rename_i hexpected
          have heq : d.edits = basis.edits :=
            edits_eq htimely hbasis hnames (by simpa using hpending) (by simpa using hexpected)
          refine ⟨fun _ => heq, fun hne => absurd heq hne, fun hconflict => ?_⟩
          exact (overwrite_outcome mode delivery _ d hconflict).elim

end WidgetDriver

/-! ## What the session knows -/

namespace Attached

variable {a b : Attached Nat} {o : Transport.Observation Nat} {ack : DeliveryAck Nat} {now : Nat}
  {null checksum : Checksum}

/-- What is handed to the driver expects the fingerprint that the session has. -/
def Hands (a : Attached Nat) : Prop :=
  ∀ delivery ∈ a.effects, delivery.expectedFingerprint = a.session.fingerprint

theorem Hands.quiet (h : a.Hands) (hquiet : Quiet a b) : b.Hands := by
  intro delivery hmem
  rw [hquiet.effects] at hmem
  rw [hquiet.side.fingerprint]
  exact h delivery hmem

/-- A dispatch leaves what the session knows as it is. -/
theorem dispatch_side (null : Checksum) (now : Nat) (a : Attached Nat) :
    SameSide a.session (a.dispatch null now).session := by
  rcases dispatch_cases null now a with heq | ⟨delivery, -, -, -, -, -, hor⟩
  · rw [heq]
    exact .refl _
  · rcases hor with ⟨-, hsession, -⟩ | ⟨handed, -, -, -, hsession, -⟩
    · rw [hsession]
      exact ⟨rfl, rfl, rfl, rfl, rfl, rfl⟩
    · rw [hsession]
      exact ⟨rfl, rfl, rfl, rfl, rfl, rfl⟩

theorem Hands.dispatch (h : a.Hands) (null : Checksum) (now : Nat) : (a.dispatch null now).Hands := by
  intro delivery hmem
  rw [(dispatch_side null now a).fingerprint]
  rcases dispatch_cases null now a with heq | ⟨pending, -, -, -, -, -, hor⟩
  · rw [heq] at hmem
    exact h delivery hmem
  · rcases hor with ⟨-, -, heffects⟩ | ⟨handed, -, -, hexpected, -, heffects⟩
    · rw [heffects] at hmem
      exact h delivery hmem
    · rw [heffects] at hmem
      rcases List.mem_append.mp hmem with hold | hnew
      · exact h delivery hold
      · rw [List.mem_singleton.mp hnew]
        exact hexpected

theorem afterTurn_side (null : Checksum) (now : Nat) (a : Attached Nat) :
    SameSide a.session (a.afterTurn null now).session :=
  (Quiet.look a).side.trans (dispatch_side null now a.look)

theorem Hands.afterTurn (h : a.Hands) (null : Checksum) (now : Nat) : (a.afterTurn null now).Hands :=
  (h.quiet (Quiet.look a)).dispatch null now

/-- The end of `attach`: what a session asks for besides its first action. -/
def attachEnd (null : Checksum) (spec : Spec) (action : InitialAction) (value : Option Checksum)
    (o : Transport.Observation Nat) (a : Attached Nat) : Attached Nat :=
  let a := if spec.driver = .share ∧ o.checksum = .absent ∧ decide (value = some null)
    then a.request null true else a
  let a :=
    if spec.mode = .rw ∧ o.needsCanonicalWrite ∧ (action = .sense ∨ action = .nothing) then
      match o.checksum, action with
      | .value checksum, .sense => a.request checksum true
      | _, _ => value.elim a fun checksum => a.request checksum true
    else a
  { a with session := { a.session with
    initial := action ≠ .write && a.session.pending.isNone } }

theorem Quiet.initial (h : Quiet a b) (initial : Bool) :
    Quiet a { b with session := { b.session with initial } } :=
  h.trans ⟨⟨rfl, rfl, rfl, rfl, rfl, rfl⟩, rfl, rfl, rfl⟩

theorem Quiet.attachEnd (spec : Spec) (action : InitialAction) (value : Option Checksum) :
    Quiet a (a.attachEnd null spec action value o) := by
  have hshare : Quiet a (if spec.driver = .share ∧ o.checksum = .absent ∧ decide (value = some null)
      then a.request null true else a) := by
    split
    · exact Quiet.request ..
    · exact Quiet.refl a
  unfold Attached.attachEnd
  dsimp only
  split
  · split
    · exact (hshare.trans (Quiet.request _ true _)).initial _
    · cases value with
      | none => exact hshare.initial _
      | some checksum => exact (hshare.trans (Quiet.request checksum true _)).initial _
  · exact hshare.initial _

theorem Quiet.setRoot {checksum : Checksum} (h : a.setRoot checksum = .ok b) : Quiet a b := by
  unfold Attached.setRoot at h
  split at h
  · cases h
  · cases h
    exact ⟨⟨rfl, rfl, rfl, rfl, rfl, rfl⟩, rfl, rfl, rfl⟩

theorem bind_ok {ε α β : Type} {m : Except ε α} {f : α → Except ε β} {y : β} (h : (m >>= f) = .ok y) :
    ∃ x, m = .ok x ∧ f x = .ok y := by
  cases m with
  | error e => cases h
  | ok x => exact ⟨x, rfl, h⟩

/-- A session that is attached knows its first observation only, and has handed nothing over. -/
theorem attach_quiet {id : Nat} {nodePath : NodePath} {spec : Spec} {directory : Bool}
    {node : NodeView} (h : attach null id nodePath spec directory node o = .ok a) :
    a.session.fingerprint = o.fingerprint ∧ a.effects = [] := by
  unfold attach at h
  dsimp only at h
  suffices hfirst : ∃ b : Attached Nat, b.session.fingerprint = o.fingerprint ∧ b.effects = [] ∧
      ∃ action value, a = b.attachEnd null spec action value o by
    obtain ⟨b, hfingerprint, heffects, action, value, heq⟩ := hfirst
    have hquiet : Quiet b a := heq ▸ Quiet.attachEnd spec action value
    exact ⟨hquiet.side.fingerprint.trans hfingerprint, hquiet.effects.trans heffects⟩
  split at h
  · obtain ⟨b, hb, h⟩ := bind_ok h
    have hquiet := Quiet.sense hb
    exact ⟨b, hquiet.side.fingerprint, hquiet.effects, _, _, (Except.ok.inj h).symm⟩
  · obtain ⟨b, hb, h⟩ := bind_ok h
    have hquiet := Quiet.setRoot hb
    have hor : Quiet b (if spec.driver = .share ∧ spec.mode = .rw then b.request null true else b) := by
      split
      · exact Quiet.request ..
      · exact Quiet.refl b
    exact ⟨_, (hquiet.trans hor).side.fingerprint, (hquiet.trans hor).effects, _, _,
      (Except.ok.inj h).symm⟩
  · obtain ⟨b, hb, h⟩ := bind_ok h
    cases hset : setRoot null _ with
    | error e =>
      rw [hset] at hb
      cases hb
    | ok c =>
      rw [hset] at hb
      cases hb
      have hquiet := Quiet.setRoot hset
      exact ⟨c.recordSenseError "Required file is missing", hquiet.side.fingerprint,
        hquiet.effects, _, _, (Except.ok.inj h).symm⟩
  · exact ⟨recordSenseError _ _, rfl, rfl, _, _, (Except.ok.inj h).symm⟩
  · have hwrite : ∀ b : Attached Nat, Quiet b (node.value.elim b fun checksum =>
        b.request checksum false) := by
      intro b
      cases node.value with
      | none => exact Quiet.refl b
      | some checksum => exact Quiet.request ..
    exact ⟨_, (hwrite _).side.fingerprint, (hwrite _).effects, _, _, (Except.ok.inj h).symm⟩
  · exact ⟨_, rfl, rfl, _, _, (Except.ok.inj h).symm⟩

/-- A handler has run: the session has counted a message, with its fingerprint, or it knows what it
has known. -/
structure Heeds (a b : Attached Nat) (ws : Nat) (fingerprint : Option Nat) : Prop where
  hands : b.Hands
  counted : (b.session.processedWs = a.session.processedWs ∧
      b.session.fingerprint = a.session.fingerprint) ∨
    (b.session.processedWs ≠ a.session.processedWs ∧ b.session.processedWs = ws ∧
      b.session.fingerprint = fingerprint)

theorem observed_heeds (h : a.Hands) (ha : a.effects = []) (now : Nat) (o : Transport.Observation Nat) :
    Heeds a (a.observed now o) o.ws o.fingerprint := by
  by_cases hkind : classify o a.session = .stale
  · have heq : a.observed now o = a := by
      unfold observed
      exact if_pos hkind
    rw [heq]
    exact ⟨h, Or.inl ⟨rfl, rfl⟩⟩
  · have hquiet := Quiet.observed now hkind
    have hws : a.session.processedWs < o.ws := by
      by_contra hle
      refine hkind ?_
      unfold classify classifyObservation
      exact if_pos (Nat.le_of_not_lt hle)
    have hheard : (a.heard o).Hands := by
      intro delivery hmem
      rw [show (a.heard o).effects = a.effects from rfl, ha] at hmem
      cases hmem
    refine ⟨hheard.quiet hquiet, Or.inr ⟨?_, hquiet.side.processedWs, hquiet.side.fingerprint⟩⟩
    rw [hquiet.side.processedWs]
    exact Nat.ne_of_gt hws

theorem acknowledge_counted (now : Nat) (ack : DeliveryAck Nat) (delivery : Delivery Nat)
    (a : Attached Nat) : (a.acknowledge now ack delivery).effects = a.effects ∧
      (((a.acknowledge now ack delivery).session.processedWs = a.session.processedWs ∧
        (a.acknowledge now ack delivery).session.fingerprint = a.session.fingerprint) ∨
      ((a.acknowledge now ack delivery).session.processedWs ≠ a.session.processedWs ∧
        (a.acknowledge now ack delivery).session.processedWs = ack.ws ∧
        (a.acknowledge now ack delivery).session.fingerprint = ack.fingerprint)) := by
  by_cases hwritten : ack.outcome = .written
  · unfold acknowledge
    rw [hwritten]
    dsimp only
    split
    · rename_i hlt
      exact ⟨rfl, Or.inr ⟨Nat.ne_of_gt hlt, rfl, rfl⟩⟩
    · exact ⟨rfl, Or.inl ⟨rfl, rfl⟩⟩
  · have hrefused := @acknowledge_refused a now ack delivery hwritten
    obtain ⟨hside, -, -, -, heffects⟩ := hrefused
    exact ⟨heffects, Or.inl ⟨hside.processedWs, hside.fingerprint⟩⟩

theorem delivered_heeds (ha : a.effects = []) (null : Checksum) (now : Nat) (ack : DeliveryAck Nat) :
    Heeds a (a.delivered null now ack) ack.ws ack.fingerprint := by
  have hnothing : a.Hands := by
    intro delivery hmem
    rw [ha] at hmem
    cases hmem
  unfold delivered
  split
  · rename_i delivery hflight
    split
    · obtain ⟨heffects, hcounted⟩ := acknowledge_counted now ack delivery a
      have hhands : (a.acknowledge now ack delivery).Hands := by
        intro other hmem
        rw [heffects, ha] at hmem
        cases hmem
      have hside := dispatch_side null now (a.acknowledge now ack delivery)
      refine ⟨hhands.dispatch null now, ?_⟩
      rw [hside.processedWs, hside.fingerprint]
      exact hcounted
    · exact ⟨hnothing, Or.inl ⟨rfl, rfl⟩⟩
  · exact ⟨hnothing, Or.inl ⟨rfl, rfl⟩⟩

end Attached

namespace WidgetSystem

open WidgetDriver

variable {x y : WidgetSystem} {null : Checksum}

/-! ## Runs -/

/-- What the session, its deliveries and its messages know of the driver. -/
structure Sound (x : WidgetSystem) : Prop where
  heard : x.driver.heard ≤ x.driver.edits
  basis : x.basis.Before x.driver
  held : x.basis.Names x.session.fingerprint
  jobs : ∀ delivery basis, WidgetJob.deliver delivery basis ∈ x.jobs →
    basis.Before x.driver ∧ basis.Names delivery.expectedFingerprint
  messages : ∀ m ∈ x.messages, m.Sound x.driver

theorem Sound.endTurn (h : x.Sound) {a : Attached Nat} (hhands : a.Hands)
    (hheld : x.basis.Names a.session.fingerprint) (node : NodeView) :
    (x.endTurn null a node).Sound := by
  have hside := Attached.afterTurn_side null x.now { a with node }
  have hhanded : Attached.Hands { a with node } := hhands
  refine ⟨h.heard, h.basis, ?_, fun delivery basis hmem => ?_, h.messages⟩
  · intro n hn
    refine hheld n ?_
    rw [← hn]
    exact hside.fingerprint.symm
  · rcases List.mem_append.mp hmem with hold | hnew
    · exact h.jobs delivery basis hold
    · obtain ⟨handed, hmem', heq⟩ := List.mem_map.mp hnew
      injection heq with hdelivery hbasis
      subst hdelivery hbasis
      refine ⟨h.basis, ?_⟩
      rw [hhanded.afterTurn null x.now handed hmem', hside.fingerprint]
      exact hheld

theorem attached_hands (x : WidgetSystem) : x.attached.Hands :=
  fun _ hmem => absurd hmem List.not_mem_nil

/-- The driver has gone on, and has told this. -/
theorem Sound.advance (h : x.Sound) {driver : WidgetDriver} (hadv : x.driver.Advances driver)
    {jobs : List WidgetJob} (hjobs : ∀ delivery basis, WidgetJob.deliver delivery basis ∈ jobs →
      WidgetJob.deliver delivery basis ∈ x.jobs)
    {told : List WidgetMessage} (htold : ∀ m ∈ told, m.Sound driver) (executions : List Execution) :
    Sound { x with driver, jobs, messages := x.messages ++ told, executions } := by
  refine ⟨hadv.heard h.heard, h.basis.mono hadv, h.held, fun delivery basis hmem => ?_, fun m hm => ?_⟩
  · obtain ⟨hbefore, hnames⟩ := h.jobs delivery basis (hjobs delivery basis hmem)
    exact ⟨hbefore.mono hadv, hnames⟩
  · rcases List.mem_append.mp hm with hold | hnew
    · exact ⟨(h.messages m hold).before.mono hadv, (h.messages m hold).names⟩
    · exact htold m hnew

/-- Only a job that is not a delivery has been added, and nothing has been told. -/
theorem Sound.idle (h : x.Sound) (driver : WidgetDriver) (hadv : x.driver.Advances driver)
    {jobs : List WidgetJob} (hjobs : ∀ delivery basis, WidgetJob.deliver delivery basis ∈ jobs →
      WidgetJob.deliver delivery basis ∈ x.jobs) : Sound { x with driver, jobs } := by
  have hsound := h.advance hadv hjobs (fun m hm => absurd hm List.not_mem_nil) x.executions
  rw [List.append_nil] at hsound
  exact hsound

/-- A handler of a message has run. -/
theorem Sound.heed (h : x.Sound) {m : WidgetMessage} (hm : m.Sound x.driver) {a : Attached Nat}
    {ws : Nat} (hheeds : x.attached.Heeds a ws m.report.fingerprint) :
    (x.heed a m.basis).basis.Before x.driver ∧
      (x.heed a m.basis).basis.Names a.session.fingerprint := by
  have hcounted : x.attached.session = x.session := rfl
  unfold WidgetSystem.heed
  dsimp only
  rcases hheeds.counted with ⟨hsame, hfingerprint⟩ | ⟨hne, -, hfingerprint⟩
  · rw [hcounted] at hsame
    rw [if_pos hsame, hfingerprint]
    exact ⟨h.basis, h.held⟩
  · rw [hcounted] at hne
    rw [if_neg hne, hfingerprint]
    exact ⟨hm.before, hm.names⟩

theorem Sound.receive (h : x.Sound) {node : NodeView} (hstep : x.receive null node = some y) :
    y.Sound ∧ y.executions = x.executions := by
  unfold WidgetSystem.receive at hstep
  split at hstep
  · cases hstep
  · rename_i m messages hmessages
    have hm : m.Sound x.driver := h.messages m (by rw [hmessages]; exact List.mem_cons_self ..)
    have hrest : Sound { x with messages } := by
      refine ⟨h.heard, h.basis, h.held, h.jobs, fun m' hm' => h.messages m' ?_⟩
      rw [hmessages]
      exact List.mem_cons_of_mem _ hm'
    have hheeded : ∀ (a : Attached Nat) (ws : Nat) (node : NodeView),
        x.attached.Heeds a ws m.report.fingerprint →
          ((({ x with messages } : WidgetSystem).heed a m.basis).endTurn null a node).Sound := by
      intro a ws node hheeds
      obtain ⟨hbefore, hnames⟩ := hrest.heed hm hheeds
      have htold : Sound { ({ x with messages } : WidgetSystem).heed a m.basis with
          session := a.session } := ⟨h.heard, hbefore, hnames, h.jobs, hrest.messages⟩
      exact htold.endTurn hheeds.hands hnames node
    dsimp only at hstep
    split at hstep
    · cases hstep
      exact ⟨hrest, rfl⟩
    · split at hstep
      · rename_i o hreport
        cases hstep
        have hheeds := Attached.observed_heeds x.attached_hands rfl x.now o
        refine ⟨hheeded _ o.ws _ ?_, rfl⟩
        rw [hreport]
        exact hheeds
      · rename_i ack hreport
        cases hstep
        have hheeds := Attached.delivered_heeds (a := x.attached) rfl null x.now ack
        refine ⟨hheeded _ ack.ws _ ?_, rfl⟩
        rw [hreport]
        exact hheeds
      · cases hstep
        exact ⟨hrest.endTurn x.attached_hands h.held _, rfl⟩

/-- The deliveries that the driver carries out are in time. -/
def InTime (x : WidgetSystem) : Event → Prop
  | .work setting =>
    match x.jobs with
    | .deliver delivery basis :: _ => Timely delivery basis setting x.driver
    | _ => True
  | _ => True

/-- No delivery has overwritten an edit that its session did not know of. -/
def Spares (x : WidgetSystem) : Prop := ∀ e ∈ x.executions, e.Spares

theorem Sound.work (h : x.Sound) (hs : x.Spares) {setting : Except String Setting}
    (htimely : x.InTime (.work setting)) (hstep : x.work setting = some y) : y.Sound ∧ y.Spares := by
  have hrest : ∀ {job : WidgetJob} {jobs : List WidgetJob}, x.jobs = job :: jobs →
      ∀ delivery basis, WidgetJob.deliver delivery basis ∈ jobs →
        WidgetJob.deliver delivery basis ∈ x.jobs := by
    intro job jobs hjobs delivery basis hmem
    rw [hjobs]
    exact List.mem_cons_of_mem _ hmem
  unfold InTime at htimely
  unfold WidgetSystem.work at hstep
  split at hstep
  · cases hstep
  · rename_i delivery basis jobs hjobs
    rw [hjobs] at htimely
    cases hstep
    have hdoes := write_does x.session.spec.mode delivery setting x.driver
    obtain ⟨hbefore, hnames⟩ := h.jobs delivery basis (by rw [hjobs]; exact List.mem_cons_self ..)
    refine ⟨h.advance hdoes.advances (hrest hjobs) (hdoes.sound h.heard) _, fun e hmem => ?_⟩
    rcases List.mem_append.mp hmem with hold | hnew
    · exact hs e hold
    · rw [List.mem_singleton.mp hnew]
      exact write_spares htimely hbefore hnames
  · rename_i generation jobs hjobs
    cases hstep
    have hdoes := read_does generation x.driver
    exact ⟨h.advance hdoes.advances (hrest hjobs) (hdoes.sound h.heard) _, hs⟩
  · rename_i id jobs hjobs
    cases hstep
    have hdoes := cut_does id x.driver
    exact ⟨h.advance hdoes.advances (hrest hjobs) (hdoes.sound h.heard) _, hs⟩
  · rename_i jobs hjobs
    cases hstep
    exact ⟨h.idle x.driver.close (.of_le rfl rfl (Nat.le_refl _)) (hrest hjobs), hs⟩

theorem Sound.step (h : x.Sound) (hs : x.Spares) {event : Event} (htimely : x.InTime event)
    (hstep : x.step null event = some y) : y.Sound ∧ y.Spares := by
  have hadded : ∀ {job : WidgetJob}, (∀ delivery basis, job ≠ .deliver delivery basis) →
      ∀ delivery basis, WidgetJob.deliver delivery basis ∈ x.jobs ++ [job] →
        WidgetJob.deliver delivery basis ∈ x.jobs := by
    intro job hjob delivery basis hmem
    rcases List.mem_append.mp hmem with hold | hnew
    · exact hold
    · exact absurd (List.mem_singleton.mp hnew).symm (hjob delivery basis)
  cases event with
  | elapse duration =>
    cases hstep
    exact ⟨⟨h.heard, h.basis, h.held, h.jobs, h.messages⟩, hs⟩
  | edit value =>
    cases hstep
    refine ⟨h.idle { x.driver with value, edits := x.driver.edits + 1 }
      ⟨Nat.le_succ _, ?_, Nat.le_succ_of_le⟩ fun _ _ hmem => hmem, hs⟩
    exact Nat.le_of_eq (Nat.add_comm ..)
  | notify =>
    obtain ⟨hlt, heq⟩ := Option.ite_none_right_eq_some.mp hstep
    cases heq
    exact ⟨h.idle _ (changed_advances hlt) fun _ _ hmem => hmem, hs⟩
  | timer generation =>
    cases hstep
    refine ⟨h.idle _ (debounced_advances generation x.driver) ?_, hs⟩
    split
    · exact hadded fun _ _ heq => nomatch heq
    · exact fun _ _ hmem => hmem
  | poll =>
    cases hstep
    exact ⟨h.idle { x.driver with timer := none } (.of_le rfl rfl (Nat.le_refl _))
      (hadded fun _ _ heq => nomatch heq), hs⟩
  | requestCut id =>
    cases hstep
    exact ⟨h.idle _ (.refl _) (hadded fun _ _ heq => nomatch heq), hs⟩
  | work setting => exact h.work hs htimely hstep
  | receive node =>
    obtain ⟨hsound, hexecutions⟩ := h.receive hstep
    refine ⟨hsound, ?_⟩
    unfold Spares
    rw [hexecutions]
    exact hs
  | turn node rooted =>
    obtain ⟨-, heq⟩ := Option.ite_none_left_eq_some.mp hstep
    cases heq
    refine ⟨h.endTurn (fun _ hmem => absurd hmem List.not_mem_nil) ?_ node, hs⟩
    dsimp only
    split
    · exact h.held
    · exact h.held
  | clearError =>
    obtain ⟨-, heq⟩ := Option.ite_none_left_eq_some.mp hstep
    cases heq
    have hquiet := Attached.Quiet.clearError x.attached
    refine ⟨h.endTurn (x.attached_hands.quiet hquiet) ?_ _, hs⟩
    rw [hquiet.side.fingerprint]
    exact h.held
  | detach =>
    cases hstep
    have hclose : ∀ delivery basis, WidgetJob.close ≠ .deliver delivery basis :=
      fun _ _ heq => nomatch heq
    have hsound := h.idle _ (.refl _) (hadded hclose)
    exact ⟨⟨hsound.heard, hsound.basis, hsound.held, hsound.jobs, hsound.messages⟩, hs⟩

theorem start_sound {value : WidgetValue} {nodePath : NodePath} {spec : Spec}
    {node rooted : NodeView} (h : start null value nodePath spec node rooted = .ok x) :
    x.Sound ∧ x.executions = [] := by
  obtain ⟨a, hattach, hdone⟩ := Attached.bind_ok h
  cases hdone
  obtain ⟨hfingerprint, heffects⟩ := Attached.attach_quiet hattach
  have hhands : a.Hands := by
    intro delivery hmem
    rw [heffects] at hmem
    cases hmem
  have hnames : (({ value } : WidgetDriver).observe.2.basis).Names a.session.fingerprint := by
    rw [hfingerprint]
    exact observation_names _
  refine ⟨Sound.endTurn ?_ hhands hnames _, rfl⟩
  exact ⟨Nat.le_refl _, ⟨Nat.le_refl _, Nat.le_refl _, Nat.le_refl _⟩, hnames,
    fun _ _ hmem => absurd hmem List.not_mem_nil, fun _ hmem => absurd hmem List.not_mem_nil⟩

/-- In every run whose deliveries are carried out in time, no edit that a session did not know of when
it dispatched a delivery is overwritten by it, and the edit is reported. -/
theorem reachable_spares {value : WidgetValue} {nodePath : NodePath} {spec : Spec}
    {node rooted : NodeView} (hstart : start null value nodePath spec node rooted = .ok x)
    (h : Transition.Reachable (step null) x InTime y) : y.Spares := by
  obtain ⟨hsound, hexecutions⟩ := start_sound hstart
  have hboth : y.Sound ∧ y.Spares := by
    refine h.invariant (I := fun z => z.Sound ∧ z.Spares) ⟨hsound, fun e hmem => ?_⟩ ?_
    · rw [hexecutions] at hmem
      cases hmem
    · exact fun _ _ _ hs htimely hstep => hs.1.step hs.2 htimely hstep
  exact hboth.2

instance (delivery : Delivery Nat) (basis : Basis) (setting : Except String Setting)
    (d : WidgetDriver) : Decidable (Timely delivery basis setting d) :=
  decidable_of_iff
    ((d.edits = basis.edits ∨ (setting.isOk = true ∧ d.closed = false)) ∧
      (d.heard = d.edits ∨ d.edits = basis.edits ∨ d.pendingChange = true ∨
        delivery.expectedFingerprint.any (· != d.fingerprint) = true) ∧
      (delivery.expectedFingerprint = none → d.pendingChange = true ∨
        d.fingerprint = basis.fingerprint))
    ⟨fun h => ⟨h.1, h.2.1, h.2.2⟩, fun h => ⟨h.resolved, h.heard, h.counted⟩⟩

instance (x : WidgetSystem) (event : Event) : Decidable (x.InTime event) := by
  unfold InTime
  split
  · split <;> infer_instance
  · infer_instance

/-- An empty widget is attached to a cell that has a value. -/
def emptyWidget : WidgetSystem :=
  { driver := { value := .none, ws := 1 }
    session := {
      id := 0, nodePath := [.key "a"], spec := { path := "widget-0", driver := .widget }, disk := .absent
      fingerprint := none, processedWs := 1, lastSynced := some ⟨5⟩, deliverySeq := 1
      pending := some { seq := 1, checksum := ⟨5⟩, expectedFingerprint := none } }
    node := { state := .complete, checksum := some ⟨5⟩ }
    basis := ⟨0, 0, 0⟩ }

theorem emptyWidget_start :
    start ⟨0⟩ .none [.key "a"] { path := "widget-0", driver := .widget }
      { state := .complete, checksum := some ⟨5⟩ } { state := .complete, checksum := some ⟨5⟩ } =
        .ok emptyWidget := by decide

/-- The user edits the widget before the delivery is carried out. -/
def editPending : List Event :=
  [.elapse second, .turn { state := .complete, checksum := some ⟨5⟩ } false, .edit (.value ⟨7⟩),
    .notify, .work (.ok { result := .value ⟨5⟩ })]

theorem editPending_runs :
    (Transition.run (step ⟨0⟩) editPending emptyWidget).isSome = true := by decide

theorem reachable_spares_editPending :
    ((Transition.run (step ⟨0⟩) editPending emptyWidget).get editPending_runs).Spares :=
  reachable_spares emptyWidget_start (.of_run .start (by decide) editPending_runs)

/-- The debounce timer has the edit read before the delivery is dispatched. -/
def editRead : List Event :=
  [.elapse second, .edit (.value ⟨7⟩), .notify, .timer 1,
    .turn { state := .complete, checksum := some ⟨5⟩ } false, .work (.ok { result := .value ⟨5⟩ }),
    .work (.ok { result := .value ⟨5⟩, notified := true })]

theorem editRead_runs : (Transition.run (step ⟨0⟩) editRead emptyWidget).isSome = true := by decide

theorem not_reachable_spares :
    ¬ ∀ null value nodePath spec node rooted x y,
      start null value nodePath spec node rooted = .ok x →
        Transition.Reachable (step null) x (fun _ _ => True) y → y.Spares := by
  intro h
  have hreach : Transition.Reachable (step ⟨0⟩) emptyWidget (fun _ _ => True)
      ((Transition.run (step ⟨0⟩) editRead emptyWidget).get editRead_runs) :=
    .of_run .start (by decide) editRead_runs
  have hspares := h _ _ _ _ _ _ _ _ emptyWidget_start hreach
  have hwritten : ∃ e ∈ ((Transition.run (step ⟨0⟩) editRead emptyWidget).get
      editRead_runs).executions, e.outcome = .written ∧ e.edits ≠ e.basis.edits := by decide
  obtain ⟨e, hmem, houtcome, hne⟩ := hwritten
  exact hne ((hspares e hmem).written houtcome)

end WidgetSystem

end Mount

end SeamlessWorkflow
