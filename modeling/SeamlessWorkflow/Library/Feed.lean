import Mathlib.Logic.Function.Basic
import Mathlib.Tactic.Common

/-!
# Change feeds

A reader follows a keyed store whose entries carry markers. It is told snapshots of the whole store,
which decide the keys, and updates of single entries; an entry is not replaced by one with a lower
marker.
-/

namespace Feed

/-- A marked value under each key. -/
abbrev View (κ β : Type*) := κ → Option (Nat × β)

inductive Message (κ β : Type*)
  | greeting
  /-- A snapshot, with the number of its making. -/
  | snapshot (stamp : Nat) (view : View κ β)
  | update (key : κ) (entry : Nat × β)

def Message.stamp? {κ β : Type*} : Message κ β → Option Nat
  | .snapshot stamp _ => some stamp
  | _ => none

variable {κ β : Type*} [DecidableEq κ]

/-- An entry that is told replaces one with a marker that is not higher. -/
def newer (old new : Nat × β) : Nat × β := if new.1 < old.1 then old else new

namespace View

/-- What a reader makes of a message. -/
def receive (view : View κ β) : Message κ β → View κ β
  | .greeting => view
  | .snapshot _ told => fun key => (told key).map fun new => (view key).elim new fun old => newer old new
  | .update key new => Function.update view key ((view key).map fun old => newer old new)

variable {view view' : View κ β} {key : κ} {stamp : Nat}

/-- A snapshot is taken over if no marker has fallen. -/
theorem receive_snapshot (h : ∀ key old new, view key = some old → view' key = some new → old.1 ≤ new.1) :
    view.receive (.snapshot stamp view') = view' := by
  funext key
  unfold receive
  dsimp only
  cases hnew : view' key with
  | none => rfl
  | some new =>
    cases hold : view key with
    | none => rfl
    | some old =>
      have hle := h key old new hold hnew
      rw [Option.map_some, Option.elim_some, newer, if_neg (Nat.not_lt.mpr hle)]

/-- An update of an entry that the reader has. -/
theorem receive_update {old new : Nat × β} (h : view key = some old) (hle : old.1 ≤ new.1) :
    view.receive (.update key new) = Function.update view key (some new) := by
  unfold receive
  dsimp only
  rw [h, Option.map_some, newer, if_neg (Nat.not_lt.mpr hle)]

theorem receive_update_none {new : Nat × β} (h : view key = none) :
    view.receive (.update key new) = view := by
  unfold receive
  dsimp only
  rw [h, Option.map_none, ← h, Function.update_eq_self]

/-- A message that tells nothing new to a reader who has this view. -/
def Stale (view : View κ β) : Message κ β → Prop
  | .greeting => True
  | .snapshot _ _ => False
  | .update key entry => ∀ current, view key = some current → entry.1 < current.1 ∨ entry = current

theorem receive_stale {m : Message κ β} (h : view.Stale m) : view.receive m = view := by
  cases m with
  | greeting => rfl
  | snapshot stamp told => exact h.elim
  | update key entry =>
    cases hcurrent : view key with
    | none => exact receive_update_none hcurrent
    | some current =>
      rcases h current hcurrent with hlt | rfl
      · unfold receive
        dsimp only
        rw [hcurrent, Option.map_some, newer, if_pos hlt, ← hcurrent, Function.update_eq_self]
      · rw [receive_update hcurrent (Nat.le_refl _), ← hcurrent, Function.update_eq_self]

theorem foldl_stale {messages : List (Message κ β)} (h : ∀ m ∈ messages, view.Stale m) :
    messages.foldl receive view = view := by
  induction messages with
  | nil => rfl
  | cons m messages ih =>
    rw [List.foldl_cons, receive_stale (h m (List.mem_cons_self ..))]
    exact ih fun m' hm' => h m' (List.mem_cons_of_mem _ hm')

/-- What is stale stays stale when an entry gets a higher marker. -/
theorem Stale.update {m : Message κ β} (h : view.Stale m) {old new : Nat × β}
    (hold : view key = some old) (hlt : old.1 < new.1) :
    View.Stale (Function.update view key (some new)) m := by
  cases m with
  | greeting => exact trivial
  | snapshot stamp told => exact h.elim
  | update key' entry =>
    intro current hcurrent
    by_cases hk : key' = key
    · subst hk
      rw [Function.update_self] at hcurrent
      cases hcurrent
      rcases h old hold with hentry | rfl
      · exact Or.inl (by omega)
      · exact Or.inl hlt
    · rw [Function.update_of_ne hk] at hcurrent
      exact h current hcurrent

/-! ## Overtaking -/

/-- It is the same for a reader with this view which of the two messages it is told first. -/
def Commutes (view : View κ β) : Message κ β → Message κ β → Prop
  | .greeting, _ => True
  | _, .greeting => True
  | .update key entry, .update key' entry' => key = key' → entry = entry' ∨ entry.1 ≠ entry'.1
  | .update key entry, .snapshot _ told =>
    ∀ new ∈ told key, entry = new ∨ entry.1 < new.1 ∨ new.1 < entry.1 ∧ view key ≠ none
  | .snapshot _ told, .update key entry =>
    ∀ new ∈ told key, entry = new ∨ entry.1 < new.1 ∨ new.1 < entry.1 ∧ view key ≠ none
  | .snapshot _ _, .snapshot _ _ => False

instance [DecidableEq β] (view : View κ β) (m m' : Message κ β) : Decidable (view.Commutes m m') := by
  unfold Commutes
  split <;> infer_instance

/-- The message may be told before those that were made earlier. -/
def Overtakes (view : View κ β) (m : Message κ β) : List (Message κ β) → Prop
  | [] => True
  | earlier :: rest => view.Commutes m earlier ∧ (view.receive earlier).Overtakes m rest

instance Overtakes.decidable [DecidableEq β] (m : Message κ β) :
    ∀ (messages : List (Message κ β)) (view : View κ β), Decidable (view.Overtakes m messages)
  | [], _ => .isTrue trivial
  | earlier :: rest, view =>
    have := decidable m rest (view.receive earlier)
    inferInstanceAs (Decidable (_ ∧ _))

theorem newer_comm {old a b : Nat × β} (h : a = b ∨ a.1 ≠ b.1) :
    newer (newer old a) b = newer (newer old b) a := by
  rcases h with rfl | hne
  · rfl
  · unfold newer
    split_ifs <;> first | rfl | omega

theorem receive_update_apply (view : View κ β) (key : κ) (entry : Nat × β) (k : κ) :
    view.receive (.update key entry) k =
      if k = key then (view k).map fun old => newer old entry else view k := by
  unfold receive
  dsimp only
  rw [Function.update_apply]
  split
  · rename_i hk
    rw [hk]
  · rfl

theorem receive_snapshot_apply (view : View κ β) (stamp : Nat) (told : View κ β) (k : κ) :
    view.receive (.snapshot stamp told) k =
      (told k).map fun new => (view k).elim new fun old => newer old new := rfl

theorem receive_update_comm {key' : κ} {entry entry' : Nat × β}
    (h : key = key' → entry = entry' ∨ entry.1 ≠ entry'.1) :
    (view.receive (.update key entry)).receive (.update key' entry') =
      (view.receive (.update key' entry')).receive (.update key entry) := by
  funext k
  rw [receive_update_apply, receive_update_apply, receive_update_apply, receive_update_apply]
  by_cases hk : k = key
  · by_cases hk' : k = key'
    · rw [if_pos hk, if_pos hk', if_pos hk', if_pos hk, Option.map_map, Option.map_map]
      refine congrArg (fun f => Option.map f (view k)) (funext fun old => ?_)
      exact newer_comm (h (hk.symm.trans hk'))
    · rw [if_neg hk', if_pos hk, if_pos hk, if_neg hk']
  · rw [if_neg hk, if_neg hk]

theorem receive_snapshot_comm {entry : Nat × β} {told : View κ β}
    (h : ∀ new ∈ told key, entry = new ∨ entry.1 < new.1 ∨ new.1 < entry.1 ∧ view key ≠ none) :
    (view.receive (.update key entry)).receive (.snapshot stamp told) =
      (view.receive (.snapshot stamp told)).receive (.update key entry) := by
  funext k
  rw [receive_update_apply, receive_snapshot_apply, receive_update_apply, receive_snapshot_apply]
  by_cases hk : k = key
  · subst hk
    rw [if_pos rfl, if_pos rfl]
    cases hnew : told k with
    | none => rfl
    | some new =>
      have hcase := h new hnew
      cases hold : view k with
      | none =>
        -- the update is lost on a reader that does not have the entry yet
        rcases hcase with rfl | hlt | ⟨-, hsome⟩
        · exact congrArg some (if_neg (Nat.lt_irrefl _)).symm
        · exact congrArg some (if_pos hlt).symm
        · exact absurd hold hsome
      | some old =>
        have hne : entry = new ∨ entry.1 ≠ new.1 := by
          rcases hcase with rfl | hlt | ⟨hlt, -⟩
          · exact Or.inl rfl
          · exact Or.inr (Nat.ne_of_lt hlt)
          · exact Or.inr (Nat.ne_of_gt hlt)
        exact congrArg some (newer_comm hne)
  · rw [if_neg hk, if_neg hk]

theorem receive_comm {m m' : Message κ β} (h : view.Commutes m m') :
    (view.receive m).receive m' = (view.receive m').receive m := by
  cases m with
  | greeting => rfl
  | snapshot stamp told =>
    cases m' with
    | greeting => rfl
    | snapshot stamp' told' => exact h.elim
    | update key' entry' => exact (receive_snapshot_comm h).symm
  | update key entry =>
    cases m' with
    | greeting => rfl
    | snapshot stamp' told' => exact receive_snapshot_comm h
    | update key' entry' => exact receive_update_comm h

/-- A message that overtakes others leaves a reader with the same view. -/
theorem foldl_overtakes {m : Message κ β} {messages : List (Message κ β)} :
    ∀ {view : View κ β}, view.Overtakes m messages →
      messages.foldl receive (view.receive m) = (messages.foldl receive view).receive m := by
  induction messages with
  | nil => exact fun _ => rfl
  | cons earlier messages ih =>
    intro view h
    rw [List.foldl_cons, List.foldl_cons, receive_comm h.1]
    exact ih h.2

/-- Lists do not overtake lists. -/
theorem Overtakes.stamps {m : Message κ β} {messages : List (Message κ β)} :
    ∀ {view : View κ β}, view.Overtakes m messages →
      m.stamp? = none ∨ messages.filterMap Message.stamp? = [] := by
  cases m with
  | greeting => exact fun _ => Or.inl rfl
  | update key entry => exact fun _ => Or.inl rfl
  | snapshot stamp told =>
    induction messages with
    | nil => exact fun _ => Or.inr rfl
    | cons earlier messages ih =>
      intro view h
      have hearlier : earlier.stamp? = none := by
        cases earlier with
        | greeting => rfl
        | snapshot stamp' told' => exact h.1.elim
        | update key entry => rfl
      rw [List.filterMap_cons_none hearlier]
      exact ih h.2

end View

/-- The view of a reader that has been told these messages. -/
def replay (messages : List (Message κ β)) : View κ β := messages.foldl View.receive fun _ => none

theorem replay_append (messages more : List (Message κ β)) :
    replay (messages ++ more) = more.foldl View.receive (replay messages) := List.foldl_append ..

end Feed
