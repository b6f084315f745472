import SeamlessWorkflow.Controller
import Mathlib.Data.List.Perm.Basic
import Mathlib.Data.List.Nodup
import Mathlib.Tactic.Common

/-!
# What the controller delivers

Messages are executed in the order in which they were accepted, and each reply is completed once. A
reply is lost when the `_begin_close` that ends a poisoning raises, because nothing follows it.
-/

namespace SeamlessWorkflow

namespace Controller

/-- The accepted messages that have not been run. -/
def waiting (c : Controller) : List ContextMessage :=
  match c.hand with
  | .taken message => message :: c.queue
  | _ => c.queue

/-- Messages are numbered as they are accepted, and run in that order. -/
structure Ordered (c : Controller) : Prop where
  numbered : ∀ m ∈ c.accepted, m.sequence ≤ c.sequence
  distinct : (c.accepted.map ContextMessage.sequence).Nodup
  inOrder : ((c.executed.map fun entry => entry.1) ++ c.waiting).Pairwise
    fun a b => a.sequence < b.sequence
  known : ∀ m ∈ (c.executed.map fun entry => entry.1) ++ c.waiting, m ∈ c.accepted

/-- Nobody is refused late: a failed or stopped controller accepts no ordinary message, and what runs
after a failure belongs to closing. -/
structure Closes (c : Controller) : Prop where
  refusing : c.failure = true → c.accepting = false
  emptied : c.stopped = true → c.queue = []
  closing : ∀ entry ∈ c.executed, entry.2 = true → entry.1.operation ∈ closingOperations

/-- The replies that are still owed are not completed, and each is owed once. -/
structure Owes (c : Controller) : Prop where
  known : ∀ m ∈ c.owed, m ∈ c.accepted
  once : (c.owed.map ContextMessage.sequence).Nodup
  unanswered : ∀ m ∈ c.owed, c.completions m = 0
  replied : ∀ entry ∈ c.replies, entry.1 ∈ c.accepted.map ContextMessage.sequence

/-- Every accepted message has its reply, or it is still owed. -/
def Answers (c : Controller) : Prop := ∀ m ∈ c.accepted, m ∉ c.owed → c.completions m = 1

/-! ## Replies -/

theorem completions_complete (c : Controller) (message : ContextMessage) (reply : Reply)
    (h : c.completions message = 0) (m : ContextMessage) :
    (c.complete message reply).completions m =
      c.completions m + if m.sequence = message.sequence then 1 else 0 := by
  have hopen : ¬ (c.replies.any fun entry => entry.1 = message.sequence) = true := by
    intro hany
    obtain ⟨entry, hentry, heq⟩ := List.any_eq_true.mp hany
    have hpos : 0 < (c.replies.map Prod.fst).count message.sequence := by
      refine List.count_pos_iff.mpr (List.mem_map.mpr ⟨entry, hentry, ?_⟩)
      simpa using heq
    unfold completions at h
    omega
  unfold complete completions
  rw [if_neg hopen, List.map_append, List.count_append]
  congr 1
  by_cases hm : m.sequence = message.sequence
  · simp [hm]
  · simp [hm, Ne.symm hm]

theorem completions_congr {c c' : Controller} (h : c'.replies = c.replies) :
    c'.completions = c.completions := by
  funext m
  unfold completions
  rw [h]

section Owing

variable {c c' : Controller} {message : ContextMessage} {reply : Reply}

/-- A step that completes no reply and drops none. -/
theorem Owes.congr (h : c.Owes) (howed : c'.owed.Perm c.owed) (haccepted : c'.accepted = c.accepted)
    (hreplies : c'.replies = c.replies) : c'.Owes where
  known m hm := haccepted ▸ h.known m (howed.mem_iff.mp hm)
  once := (howed.map _).nodup_iff.mpr h.once
  unanswered m hm := by
    rw [completions_congr hreplies]
    exact h.unanswered m (howed.mem_iff.mp hm)
  replied entry he := haccepted ▸ h.replied entry (hreplies ▸ he)

theorem Answers.congr (h : c.Answers) (howed : c'.owed.Perm c.owed)
    (haccepted : c'.accepted = c.accepted) (hreplies : c'.replies = c.replies) : c'.Answers := by
  intro m hm hnot
  rw [completions_congr hreplies]
  exact h m (haccepted ▸ hm) fun howed' => hnot (howed.mem_iff.mpr howed')

/-- A reply that is no longer owed leaves the others as they are. -/
theorem Owes.drop (h : c.Owes) (howed : c.owed.Perm (message :: c'.owed))
    (haccepted : c'.accepted = c.accepted) (hreplies : c'.replies = c.replies) : c'.Owes where
  known m hm := haccepted ▸ h.known m (howed.mem_iff.mpr (List.mem_cons_of_mem _ hm))
  once := by
    have := (howed.map ContextMessage.sequence).nodup_iff.mp h.once
    exact (List.nodup_cons.mp this).2
  unanswered m hm := by
    rw [completions_congr hreplies]
    exact h.unanswered m (howed.mem_iff.mpr (List.mem_cons_of_mem _ hm))
  replied entry he := haccepted ▸ h.replied entry (hreplies ▸ he)

/-- Completing an owed reply completes it once, and no other. -/
theorem Owes.settle (h : c.Owes) (howed : c.owed.Perm (message :: c'.owed))
    (haccepted : c'.accepted = c.accepted)
    (hreplies : c'.replies = (c.complete message reply).replies) :
    c'.Owes ∧ (c.Answers → (c.accepted.map ContextMessage.sequence).Nodup → c'.Answers) := by
  have hmem : message ∈ c.owed := howed.mem_iff.mpr (List.mem_cons_self ..)
  have hcount : ∀ m, c'.completions m =
      c.completions m + if m.sequence = message.sequence then 1 else 0 := by
    intro m
    rw [← completions_complete c message reply (h.unanswered message hmem) m]
    unfold completions
    rw [hreplies]
  have honce := (howed.map ContextMessage.sequence).nodup_iff.mp h.once
  have hfresh : ∀ m ∈ c'.owed, m.sequence ≠ message.sequence := by
    intro m hm heq
    refine (List.nodup_cons.mp honce).1 ?_
    rw [← heq]
    exact List.mem_map_of_mem hm
  refine ⟨⟨fun m hm => ?_, (List.nodup_cons.mp honce).2, fun m hm => ?_, fun entry he => ?_⟩,
    fun ha hd m hm hnot => ?_⟩
  · rw [haccepted]
    exact h.known m (howed.mem_iff.mpr (List.mem_cons_of_mem _ hm))
  · rw [hcount, h.unanswered m (howed.mem_iff.mpr (List.mem_cons_of_mem _ hm)), if_neg (hfresh m hm)]
  · rw [haccepted]
    rw [hreplies] at he
    unfold complete at he
    split at he
    · exact h.replied entry he
    · rcases List.mem_append.mp he with hold | hnew
      · exact h.replied entry hold
      · rw [List.mem_singleton.mp hnew]
        exact List.mem_map_of_mem (h.known message hmem)
  · rw [haccepted] at hm
    rw [hcount]
    by_cases heq : m.sequence = message.sequence
    · obtain rfl : m = message := List.inj_on_of_nodup_map hd hm (h.known message hmem) heq
      rw [h.unanswered m hmem, if_pos rfl]
    · rw [if_neg heq]
      refine ha m hm fun howed' => ?_
      rcases List.mem_cons.mp (howed.mem_iff.mp howed') with rfl | hrest
      · exact heq rfl
      · exact hnot hrest

end Owing

/-! ## Steps -/

section Steps

variable {c : Controller}

/-- An offered message is refused, or it is numbered and queued. -/
theorem enqueue_cases (c : Controller) (operation : String) (klass : Nat) (isInternal : Bool) :
    c.enqueue operation klass isInternal = (none, c) ∨
      c.stopped = false ∧ (c.accepting = true ∨ isInternal = true) ∧
        c.enqueue operation klass isInternal = (some (c.sequence + 1),
          { c with
            sequence := c.sequence + 1
            queue := c.queue ++ [⟨c.sequence + 1, klass, operation⟩]
            accepted := c.accepted ++ [⟨c.sequence + 1, klass, operation⟩] }) := by
  unfold enqueue
  by_cases hfailed : (c.failure && !isInternal) = true
  · rw [if_pos hfailed]
    exact Or.inl rfl
  · rw [if_neg hfailed]
    by_cases hclosed : (c.stopped || (!c.accepting && !isInternal)) = true
    · rw [if_pos hclosed]
      exact Or.inl rfl
    · rw [if_neg hclosed]
      rw [Bool.or_eq_true, not_or, Bool.not_eq_true] at hclosed
      refine Or.inr ⟨hclosed.1, ?_, rfl⟩
      have := hclosed.2
      cases hacc : c.accepting <;> cases hint : isInternal <;> simp_all

/-- A controller that has begun to close refuses an ordinary message. -/
theorem enqueue_refused (h : c.accepting = false) (operation : String) (klass : Nat) :
    c.enqueue operation klass false = (none, c) := by
  rcases enqueue_cases c operation klass false with hr | ⟨-, hacc, -⟩
  · exact hr
  · rcases hacc with hacc | hint
    · rw [h] at hacc
      cases hacc
    · cases hint

/-- The state after the operation of a message has run, or has been refused. -/
theorem runTaken_spec (c : Controller) (message : ContextMessage) (outcome : TurnOutcome) :
    let next := c.runTaken message outcome
    next.hand.messages = [message] ∧ next.waiting = c.queue ∧ next.queue = c.queue ∧
      next.pending = c.pending ∧ next.replies = c.replies ∧ next.accepted = c.accepted ∧
      next.sequence = c.sequence ∧ next.stopped = c.stopped ∧
      (next.executed = c.executed ∨ next.executed = c.executed ++ [(message, c.failure)] ∧
        (c.failure = true → message.operation ∈ closingOperations)) ∧
      (next.failure = c.failure ∧ next.accepting = c.accepting ∨ next.accepting = false) := by
  dsimp only
  unfold runTaken
  by_cases hcontext : (!c.context) = true
  · rw [if_pos hcontext]
    exact ⟨rfl, rfl, rfl, rfl, rfl, rfl, rfl, rfl, Or.inl rfl, Or.inl ⟨rfl, rfl⟩⟩
  · rw [if_neg hcontext]
    by_cases hrefused : (c.failure && !closingOperations.contains message.operation) = true
    · rw [if_pos hrefused]
      exact ⟨rfl, rfl, rfl, rfl, rfl, rfl, rfl, rfl, Or.inl rfl, Or.inl ⟨rfl, rfl⟩⟩
    · rw [if_neg hrefused]
      have hclosing : c.failure = true → message.operation ∈ closingOperations := by
        intro hfailure
        rw [hfailure, Bool.true_and, Bool.not_eq_true', Bool.not_eq_false] at hrefused
        exact List.contains_iff_mem.mp hrefused
      obtain ⟨poisons, raises⟩ := outcome
      cases hfailure : c.failure <;> cases poisons <;> cases raises <;>
        simp_all [poison, Hand.messages, waiting]

/-- The state after a failure has been handled. -/
theorem handleFailure_spec (c : Controller) (message : ContextMessage) (closeRaises : Bool) :
    let next := c.handleFailure message closeRaises
    next.queue = c.queue ∧ next.pending = c.pending ∧ next.replies = c.replies ∧
      next.accepted = c.accepted ∧ next.sequence = c.sequence ∧ next.stopped = c.stopped ∧
      next.executed = c.executed ∧ next.waiting = c.queue ∧
      (next.failure = c.failure ∧ next.accepting = c.accepting ∨ next.accepting = false) ∧
      (next.hand.messages = [message] ∨
        next.hand = .idle ∧ closeRaises = true ∧ c.poisonsNow message = true) := by
  dsimp only
  unfold handleFailure
  by_cases hpoisons : c.poisonsNow message = true
  · rw [if_pos hpoisons]
    cases hfailure : c.failure <;> cases closeRaises <;>
      simp_all [poison, Hand.messages, waiting, poisonsNow]
  · rw [if_neg hpoisons]
    exact ⟨rfl, rfl, rfl, rfl, rfl, rfl, rfl, rfl, Or.inl ⟨rfl, rfl⟩, Or.inl rfl⟩

theorem complete_fields (c : Controller) (message : ContextMessage) (reply : Reply) :
    (c.complete message reply).queue = c.queue ∧ (c.complete message reply).pending = c.pending ∧
      (c.complete message reply).accepted = c.accepted ∧
      (c.complete message reply).executed = c.executed ∧
      (c.complete message reply).sequence = c.sequence ∧
      (c.complete message reply).stopped = c.stopped ∧
      (c.complete message reply).failure = c.failure ∧
      (c.complete message reply).accepting = c.accepting ∧
      (c.complete message reply).hand = c.hand := by
  unfold complete
  split <;> exact ⟨rfl, rfl, rfl, rfl, rfl, rfl, rfl, rfl, rfl⟩

theorem step_take {next : Controller} (h : c.step .take = some next) : ∃ message queue,
    c.hand = .idle ∧ c.queue = message :: queue ∧
      next = { c with queue := queue, hand := .taken message } := by
  unfold step at h
  dsimp only at h
  split at h
  · rename_i message queue hhand hqueue
    exact ⟨message, queue, hhand, hqueue, (Option.some.inj h).symm⟩
  · cases h

theorem step_runTurn {next : Controller} {outcome : TurnOutcome}
    (h : c.step (.runTurn outcome) = some next) :
    ∃ message, c.hand = .taken message ∧ next = c.runTaken message outcome := by
  unfold step at h
  dsimp only at h
  split at h
  · rename_i message hhand
    exact ⟨message, hhand, (Option.some.inj h).symm⟩
  · cases h

theorem step_handle {next : Controller} {closeRaises : Bool}
    (h : c.step (.handle closeRaises) = some next) :
    ∃ message, c.hand = .failing message ∧ next = c.handleFailure message closeRaises := by
  unfold step at h
  dsimp only at h
  split at h
  · rename_i message hhand
    exact ⟨message, hhand, (Option.some.inj h).symm⟩
  · cases h

theorem step_reply {next : Controller} (h : c.step .reply = some next) : ∃ message reply,
    c.hand = .replying message reply ∧ next = { c.complete message reply with hand := .idle } := by
  unfold step at h
  dsimp only at h
  split at h
  · rename_i message reply hhand
    exact ⟨message, reply, hhand, (Option.some.inj h).symm⟩
  · cases h

theorem step_reject {next : Controller} (h : c.step .reject = some next) : ∃ message pending,
    c.pending = message :: pending ∧ next = { c.complete message .error with pending := pending } := by
  unfold step at h
  dsimp only at h
  split at h
  · rename_i message pending hpending
    exact ⟨message, pending, hpending, (Option.some.inj h).symm⟩
  · cases h

/-! ## Order -/

/-- Nothing of what is numbered, accepted, run or waiting has changed. -/
theorem Ordered.congr {c' : Controller} (h : c.Ordered) (haccepted : c'.accepted = c.accepted)
    (hsequence : c'.sequence = c.sequence)
    (hlines : ((c'.executed.map fun entry => entry.1) ++ c'.waiting).Sublist
      ((c.executed.map fun entry => entry.1) ++ c.waiting)) : c'.Ordered where
  numbered m hm := by
    rw [hsequence]
    exact h.numbered m (haccepted ▸ hm)
  distinct := haccepted ▸ h.distinct
  inOrder := h.inOrder.sublist hlines
  known m hm := haccepted ▸ h.known m (hlines.subset hm)

theorem Ordered.enqueue (h : c.Ordered) (operation : String) (klass : Nat) (isInternal : Bool) :
    (c.enqueue operation klass isInternal).2.Ordered := by
  rcases enqueue_cases c operation klass isInternal with hr | ⟨-, -, hr⟩
  · rw [hr]
    exact h
  · rw [hr]
    have hwaiting : ∀ message : ContextMessage, ({ c with
        sequence := c.sequence + 1, queue := c.queue ++ [message]
        accepted := c.accepted ++ [message] } : Controller).waiting = c.waiting ++ [message] := by
      intro message
      unfold waiting
      dsimp only
      split <;> rfl
    refine ⟨fun m hm => ?_, ?_, ?_, fun m hm => ?_⟩
    · dsimp only at hm ⊢
      rcases List.mem_append.mp hm with hold | hnew
      · have := h.numbered m hold
        omega
      · have hsame := List.mem_singleton.mp hnew
        subst hsame
        exact Nat.le_refl _
    · dsimp only
      rw [List.map_append, List.nodup_append]
      refine ⟨h.distinct, List.nodup_singleton _, fun a ha b hb => ?_⟩
      obtain ⟨m, hm, rfl⟩ := List.mem_map.mp ha
      have hle := h.numbered m hm
      rw [List.map_singleton, List.mem_singleton] at hb
      rw [hb]
      dsimp only
      omega
    · rw [hwaiting, ← List.append_assoc, List.pairwise_append]
      refine ⟨h.inOrder, List.pairwise_singleton _ _, fun a ha b hb => ?_⟩
      have := h.numbered a (h.known a ha)
      rw [List.mem_singleton.mp hb]
      dsimp only
      omega
    · rw [hwaiting, ← List.append_assoc] at hm
      rcases List.mem_append.mp hm with hold | hnew
      · exact List.mem_append_left _ (h.known m hold)
      · exact List.mem_append_right _ hnew

/-- Every step keeps the order. -/
theorem Ordered.step {next : Controller} {event : Event} (h : c.Ordered)
    (hs : c.step event = some next) : next.Ordered := by
  cases event with
  | enqueue operation klass isInternal =>
    obtain rfl := Option.some.inj hs
    exact h.enqueue operation klass isInternal
  | beginClose =>
    obtain rfl := Option.some.inj hs
    exact h.congr rfl rfl (List.Sublist.refl _)
  | take =>
    obtain ⟨message, queue, hhand, hqueue, rfl⟩ := step_take hs
    refine h.congr rfl rfl ?_
    unfold waiting
    rw [hhand, hqueue]
  | runTurn outcome =>
    obtain ⟨message, hhand, rfl⟩ := step_runTurn hs
    obtain ⟨-, hwaiting, -, -, -, haccepted, hsequence, -, hexecuted, -⟩ :=
      runTaken_spec c message outcome
    have hbefore : c.waiting = message :: c.queue := by
      unfold waiting
      rw [hhand]
    refine h.congr haccepted hsequence ?_
    rw [hwaiting, hbefore]
    rcases hexecuted with hexecuted | ⟨hexecuted, -⟩
    · rw [hexecuted]
      exact (List.Sublist.refl _).append (List.sublist_cons_self _ _)
    · rw [hexecuted, List.map_append, List.append_assoc]
      exact List.Sublist.refl _
  | handle closeRaises =>
    obtain ⟨message, hhand, rfl⟩ := step_handle hs
    obtain ⟨-, -, -, haccepted, hsequence, -, hexecuted, hwaiting, -, -⟩ :=
      handleFailure_spec c message closeRaises
    refine h.congr haccepted hsequence ?_
    rw [hexecuted, hwaiting]
    unfold waiting
    rw [hhand]
  | reply =>
    obtain ⟨message, reply, hhand, rfl⟩ := step_reply hs
    obtain ⟨hqueue, -, haccepted, hexecuted, hsequence, -⟩ := complete_fields c message reply
    refine h.congr haccepted hsequence ?_
    show (List.map _ (c.complete message reply).executed ++
      (c.complete message reply).queue).Sublist _
    rw [hexecuted, hqueue]
    unfold waiting
    rw [hhand]
  | loseContext =>
    obtain rfl := Option.some.inj hs
    exact h.congr rfl rfl (List.Sublist.refl _)
  | stop =>
    obtain rfl := Option.some.inj hs
    refine h.congr rfl rfl ((List.Sublist.refl _).append ?_)
    unfold waiting
    dsimp only
    split
    · exact (List.nil_sublist _).cons_cons _
    · exact List.nil_sublist _
  | reject =>
    obtain ⟨message, pending, hpending, rfl⟩ := step_reject hs
    obtain ⟨hqueue, -, haccepted, hexecuted, hsequence, -, -, -, hhand⟩ :=
      complete_fields c message .error
    refine h.congr haccepted hsequence ?_
    have hwaiting : ({ c.complete message .error with pending := pending } : Controller).waiting =
        c.waiting := by
      unfold waiting
      dsimp only
      rw [hhand, hqueue]
    rw [hwaiting]
    show (List.map _ (c.complete message .error).executed ++ _).Sublist _
    rw [hexecuted]

/-! ## Closing -/

theorem Closes.congr {c' : Controller} (h : c.Closes) (hqueue : c'.queue = c.queue)
    (hstopped : c'.stopped = c.stopped) (hexecuted : c'.executed = c.executed)
    (hfailure : c'.failure = c.failure ∧ c'.accepting = c.accepting ∨ c'.accepting = false) :
    c'.Closes where
  refusing hf := by
    rcases hfailure with ⟨hsame, hacc⟩ | hacc
    · rw [hacc]
      exact h.refusing (hsame ▸ hf)
    · exact hacc
  emptied hs := by
    rw [hqueue]
    exact h.emptied (hstopped ▸ hs)
  closing entry he := h.closing entry (hexecuted ▸ he)

theorem Closes.step {next : Controller} {event : Event} (h : c.Closes)
    (hs : c.step event = some next) : next.Closes := by
  cases event with
  | enqueue operation klass isInternal =>
    obtain rfl := Option.some.inj hs
    rcases enqueue_cases c operation klass isInternal with hr | ⟨hrunning, -, hr⟩
    · rw [hr]
      exact h
    · rw [hr]
      refine ⟨h.refusing, fun hstopped => ?_, h.closing⟩
      have hstopped : c.stopped = true := hstopped
      rw [hrunning] at hstopped
      cases hstopped
  | beginClose =>
    obtain rfl := Option.some.inj hs
    exact h.congr rfl rfl rfl (Or.inr rfl)
  | take =>
    obtain ⟨message, queue, -, hqueue, rfl⟩ := step_take hs
    refine ⟨h.refusing, fun hstopped => ?_, h.closing⟩
    have hempty := h.emptied hstopped
    rw [hqueue] at hempty
    cases hempty
  | runTurn outcome =>
    obtain ⟨message, -, rfl⟩ := step_runTurn hs
    obtain ⟨-, -, hqueue, -, -, -, -, hstopped, hexecuted, hfailure⟩ :=
      runTaken_spec c message outcome
    rcases hexecuted with hexecuted | ⟨hexecuted, hclosing⟩
    · exact h.congr hqueue hstopped hexecuted hfailure
    · have hkept : Closes { c.runTaken message outcome with executed := c.executed } :=
        h.congr hqueue hstopped rfl hfailure
      refine ⟨hkept.refusing, fun hs => ?_, fun entry he hfailed => ?_⟩
      · rw [hqueue]
        exact h.emptied (hstopped ▸ hs)
      · rw [hexecuted] at he
        rcases List.mem_append.mp he with hold | hnew
        · exact h.closing entry hold hfailed
        · rw [List.mem_singleton.mp hnew] at hfailed ⊢
          exact hclosing hfailed
  | handle closeRaises =>
    obtain ⟨message, -, rfl⟩ := step_handle hs
    obtain ⟨hqueue, -, -, -, -, hstopped, hexecuted, -, hfailure, -⟩ :=
      handleFailure_spec c message closeRaises
    exact h.congr hqueue hstopped hexecuted hfailure
  | reply =>
    obtain ⟨message, reply, -, rfl⟩ := step_reply hs
    obtain ⟨hqueue, -, -, hexecuted, -, hstopped, hfailure, haccepting, -⟩ :=
      complete_fields c message reply
    exact h.congr hqueue hstopped hexecuted (Or.inl ⟨hfailure, haccepting⟩)
  | loseContext =>
    obtain rfl := Option.some.inj hs
    exact h.congr rfl rfl rfl (Or.inl ⟨rfl, rfl⟩)
  | stop =>
    obtain rfl := Option.some.inj hs
    exact ⟨fun _ => rfl, fun _ => rfl, h.closing⟩
  | reject =>
    obtain ⟨message, pending, -, rfl⟩ := step_reject hs
    obtain ⟨hqueue, -, -, hexecuted, -, hstopped, hfailure, haccepting, -⟩ :=
      complete_fields c message .error
    exact h.congr hqueue hstopped hexecuted (Or.inl ⟨hfailure, haccepting⟩)

/-! ## Replies over steps -/

/-- The step loses the reply of the message in hand: its failure poisons the controller, and closing
raises. -/
def LosesReply (c : Controller) (event : Event) : Prop :=
  event = .handle true ∧ ∃ message, c.hand = .failing message ∧ c.poisonsNow message = true

/-- A new message owes its reply. -/
theorem Owes.enqueue (h : c.Owes) (ho : c.Ordered) (operation : String) (klass : Nat)
    (isInternal : Bool) :
    (c.enqueue operation klass isInternal).2.Owes ∧
      (c.Answers → (c.enqueue operation klass isInternal).2.Answers) := by
  rcases enqueue_cases c operation klass isInternal with hr | ⟨-, -, hr⟩
  · rw [hr]
    exact ⟨h, id⟩
  · rw [hr]
    set message : ContextMessage := ⟨c.sequence + 1, klass, operation⟩ with hmessage
    set next : Controller := { c with
      sequence := c.sequence + 1, queue := c.queue ++ [message]
      accepted := c.accepted ++ [message] } with hnext
    have howed : next.owed.Perm (message :: c.owed) := by
      unfold owed
      rw [hnext]
      dsimp only
      rw [List.append_assoc, List.append_assoc, List.append_assoc]
      exact List.perm_middle
    have hbelow : ∀ m ∈ c.accepted, m.sequence < message.sequence := fun m hm =>
      Nat.lt_succ_of_le (ho.numbered m hm)
    have hfresh : next.completions message = 0 := by
      refine List.count_eq_zero.mpr fun hm => ?_
      obtain ⟨entry, he, hentry⟩ := List.mem_map.mp hm
      obtain ⟨m, hm, hsequence⟩ := List.mem_map.mp (h.replied entry he)
      have := hbelow m hm
      omega
    refine ⟨⟨fun m hm => ?_, ?_, fun m hm => ?_, fun entry he => ?_⟩, fun ha m hm hnot => ?_⟩
    · rcases List.mem_cons.mp (howed.mem_iff.mp hm) with rfl | hold
      · exact List.mem_append_right _ (List.mem_singleton_self _)
      · exact List.mem_append_left _ (h.known m hold)
    · refine (howed.map _).nodup_iff.mpr (List.nodup_cons.mpr ⟨fun hm => ?_, h.once⟩)
      obtain ⟨m, hm, hsequence⟩ := List.mem_map.mp hm
      have := hbelow m (h.known m hm)
      omega
    · rcases List.mem_cons.mp (howed.mem_iff.mp hm) with rfl | hold
      · exact hfresh
      · exact h.unanswered m hold
    · have := h.replied entry he
      rw [hnext]
      dsimp only
      rw [List.map_append]
      exact List.mem_append_left _ this
    · rcases List.mem_append.mp hm with hold | hnew
      · exact ha m hold fun hm => hnot (howed.mem_iff.mpr (List.mem_cons_of_mem _ hm))
      · rw [List.mem_singleton.mp hnew] at hnot
        exact absurd (howed.mem_iff.mpr (List.mem_cons_self ..)) hnot

/-- A step leaves the owed replies open, and unless it loses one it answers every other message. -/
theorem Owes.step {next : Controller} {event : Event} (h : c.Owes) (ho : c.Ordered)
    (hs : c.step event = some next) :
    next.Owes ∧ (c.Answers → ¬ c.LosesReply event → next.Answers) := by
  cases event with
  | enqueue operation klass isInternal =>
    obtain rfl := Option.some.inj hs
    obtain ⟨howes, hanswers⟩ := h.enqueue ho operation klass isInternal
    exact ⟨howes, fun ha _ => hanswers ha⟩
  | beginClose =>
    obtain rfl := Option.some.inj hs
    exact ⟨h.congr (List.Perm.refl _) rfl rfl, fun ha _ => ha.congr (List.Perm.refl _) rfl rfl⟩
  | take =>
    obtain ⟨message, queue, hhand, hqueue, rfl⟩ := step_take hs
    have howed : (queue ++ [message] ++ c.pending).Perm c.owed := by
      unfold owed
      rw [hhand, hqueue]
      show (queue ++ [message] ++ c.pending).Perm (message :: queue ++ [] ++ c.pending)
      rw [List.append_nil]
      exact (List.perm_append_singleton message queue).append_right _
    exact ⟨h.congr howed rfl rfl, fun ha _ => ha.congr howed rfl rfl⟩
  | runTurn outcome =>
    obtain ⟨message, hhand, rfl⟩ := step_runTurn hs
    obtain ⟨hmessages, -, hqueue, hpending, hreplies, haccepted, -⟩ :=
      runTaken_spec c message outcome
    have howed : (c.runTaken message outcome).owed.Perm c.owed := by
      unfold owed
      rw [hmessages, hqueue, hpending, hhand]
      exact List.Perm.refl _
    exact ⟨h.congr howed haccepted hreplies, fun ha _ => ha.congr howed haccepted hreplies⟩
  | handle closeRaises =>
    obtain ⟨message, hhand, rfl⟩ := step_handle hs
    obtain ⟨hqueue, hpending, hreplies, haccepted, -, -, -, -, -, hmessages⟩ :=
      handleFailure_spec c message closeRaises
    rcases hmessages with hmessages | ⟨hidle, rfl, hpoisons⟩
    · have howed : (c.handleFailure message closeRaises).owed.Perm c.owed := by
        unfold owed
        rw [hmessages, hqueue, hpending, hhand]
        exact List.Perm.refl _
      exact ⟨h.congr howed haccepted hreplies, fun ha _ => ha.congr howed haccepted hreplies⟩
    · have howed : c.owed.Perm (message :: (c.handleFailure message true).owed) := by
        unfold owed
        rw [hidle, hqueue, hpending, hhand]
        show (c.queue ++ [message] ++ c.pending).Perm (message :: (c.queue ++ [] ++ c.pending))
        rw [List.append_nil]
        exact (List.perm_append_singleton message c.queue).append_right _
      exact ⟨h.drop howed haccepted hreplies, fun _ hl => absurd ⟨rfl, message, hhand, hpoisons⟩ hl⟩
  | reply =>
    obtain ⟨message, reply, hhand, rfl⟩ := step_reply hs
    obtain ⟨hqueue, hpending, haccepted, -⟩ := complete_fields c message reply
    have howed : c.owed.Perm
        (message :: ({ c.complete message reply with hand := .idle } : Controller).owed) := by
      unfold owed
      dsimp only
      rw [hqueue, hpending, hhand]
      show (c.queue ++ [message] ++ c.pending).Perm (message :: (c.queue ++ [] ++ c.pending))
      rw [List.append_nil]
      exact (List.perm_append_singleton message c.queue).append_right _
    obtain ⟨howes, hanswers⟩ := h.settle howed haccepted rfl
    exact ⟨howes, fun ha _ => hanswers ha ho.distinct⟩
  | loseContext =>
    obtain rfl := Option.some.inj hs
    exact ⟨h.congr (List.Perm.refl _) rfl rfl, fun ha _ => ha.congr (List.Perm.refl _) rfl rfl⟩
  | stop =>
    obtain rfl := Option.some.inj hs
    have howed : ([] ++ c.hand.messages ++ (c.pending ++ c.queue)).Perm c.owed := by
      unfold owed
      rw [List.nil_append, ← List.append_assoc, List.append_assoc c.queue]
      exact List.perm_append_comm
    exact ⟨h.congr howed rfl rfl, fun ha _ => ha.congr howed rfl rfl⟩
  | reject =>
    obtain ⟨message, pending, hpending, rfl⟩ := step_reject hs
    obtain ⟨hqueue, -, haccepted, -, -, -, -, -, hhand⟩ := complete_fields c message .error
    have howed : c.owed.Perm
        (message :: ({ c.complete message .error with pending := pending } : Controller).owed) := by
      unfold owed
      dsimp only
      rw [hqueue, hhand, hpending]
      exact List.perm_middle
    obtain ⟨howes, hanswers⟩ := h.settle howed haccepted rfl
    exact ⟨howes, fun ha _ => hanswers ha ho.distinct⟩

end Steps

/-! ## Runs -/

/-- What a controller owes to those who offer messages. Executed messages were accepted and are in the
order of their numbers, so each of them ran once; each reply is completed once or still owed, and none
is owed after `stop`; a closing controller refuses ordinary messages, and after a failure nothing runs
that does not belong to closing. -/
structure Delivers (c : Controller) : Prop where
  executed : ∀ entry ∈ c.executed, entry.1 ∈ c.accepted
  inOrder : (c.executed.map fun entry => entry.1.sequence).Pairwise (· < ·)
  answered : ∀ m ∈ c.accepted, c.completions m = if m ∈ c.owed then 0 else 1
  ended : c.Ended → ∀ m ∈ c.accepted, c.completions m = 1
  refuses : c.accepting = false ∨ c.failure = true → ∀ operation klass,
    c.enqueue operation klass false = (none, c)
  closing : ∀ entry ∈ c.executed, entry.2 = true → entry.1.operation ∈ closingOperations

theorem delivers_of {c : Controller} (ho : c.Ordered) (hc : c.Closes) (h : c.Owes)
    (ha : c.Answers) : c.Delivers where
  executed entry he := ho.known _ (List.mem_append_left _ (List.mem_map_of_mem he))
  inOrder := by
    have hlines := List.pairwise_map.mp (List.pairwise_append.mp ho.inOrder).1
    exact List.pairwise_map.mpr hlines
  answered m hm := by
    by_cases howed : m ∈ c.owed
    · rw [if_pos howed]
      exact h.unanswered m howed
    · rw [if_neg howed]
      exact ha m hm howed
  ended := by
    rintro ⟨hstopped, hidle, hpending⟩ m hm
    refine ha m hm fun howed => ?_
    unfold owed at howed
    rw [hc.emptied hstopped, hidle, hpending] at howed
    cases howed
  refuses hclosing operation klass := by
    rcases hclosing with hclosing | hfailure
    · exact enqueue_refused hclosing operation klass
    · exact enqueue_refused (hc.refusing hfailure) operation klass
  closing := hc.closing

/-- No step loses a reply. -/
def KeepsReplies (c : Controller) (event : Event) : Prop := ¬ c.LosesReply event

instance (c : Controller) (event : Event) : Decidable (c.KeepsReplies event) := by
  unfold KeepsReplies LosesReply
  cases hhand : c.hand with
  | failing message =>
    exact decidable_of_iff (¬ (event = .handle true ∧ c.poisonsNow message = true)) (by simp)
  | idle => exact isTrue (by simp)
  | taken message => exact isTrue (by simp)
  | replying message reply => exact isTrue (by simp)

/-- Every step that keeps the replies keeps what the controller delivers. -/
theorem reachable_delivers {c : Controller}
    (h : Transition.Reachable step {} KeepsReplies c) : c.Delivers := by
  have hall : c.Ordered ∧ c.Closes ∧ c.Owes ∧ c.Answers := by
    refine h.invariant (I := fun c => c.Ordered ∧ c.Closes ∧ c.Owes ∧ c.Answers) ?_ ?_
    · refine ⟨⟨?_, List.nodup_nil, List.Pairwise.nil, ?_⟩, ⟨fun _ => ?_, fun _ => rfl, ?_⟩,
        ⟨?_, List.nodup_nil, ?_, ?_⟩, ?_⟩ <;> simp_all [owed, waiting, Hand.messages, Answers]
    · rintro c next event ⟨ho, hc, howes, ha⟩ hkeeps hs
      obtain ⟨howes', hanswers⟩ := howes.step ho hs
      exact ⟨ho.step hs, hc.step hs, howes', hanswers ha hkeeps⟩
  exact delivers_of hall.1 hall.2.1 hall.2.2.1 hall.2.2.2

/-- A message of class 5 whose turn raises, with closing that succeeds or raises, and `stop`. -/
def failTurn (closeRaises : Bool) : List Event :=
  [.enqueue "_mount_observed" 5 false, .take, .runTurn ⟨false, true⟩, .handle closeRaises, .reply, .stop]

theorem failTurn_runs : (Transition.run step (failTurn false) {}).isSome = true := by decide

theorem reachable_delivers_failTurn :
    ((Transition.run step (failTurn false) {}).get failTurn_runs).Delivers :=
  reachable_delivers (Transition.Reachable.of_run .start (by decide) failTurn_runs)

/-- Where closing raises there is no reply to complete. -/
def failTwice : List Event := (failTurn true).take 4 ++ [.stop]

theorem failTwice_runs : (Transition.run step failTwice {}).isSome = true := by decide

theorem not_reachable_delivers :
    ¬ ∀ c, Transition.Reachable step {} (fun _ _ => True) c → c.Delivers := by
  intro h
  have := (h _ (Transition.Reachable.of_run .start (by decide) failTwice_runs)).ended (by decide)
  exact absurd this (by decide)

end Controller

end SeamlessWorkflow
