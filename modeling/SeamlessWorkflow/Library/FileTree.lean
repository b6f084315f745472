import Mathlib.Data.List.AList
import Mathlib.Data.List.Infix
import Mathlib.Tactic.Common

/-!
# File trees with symbolic links

A tree is a table from real paths to entries. Every entry lies in a directory of the table. What an
operation changes is the entry at a real place, a directory and a name in it.
-/

namespace FileTree

variable {N D : Type} [DecidableEq N]

/-! ## Trees -/

/-- A step of the text of a link. -/
inductive LinkStep (N : Type)
  | name (n : N)
  | up
  deriving DecidableEq, Repr

/-- Where a link points: from the root, or from the directory it is in. -/
structure LinkTarget (N : Type) where
  absolute : Bool
  steps : List (LinkStep N)
  deriving DecidableEq, Repr

/-- An entry. Its stamp is what `stat` tells of a directory or of a file besides its content. -/
inductive Entry (N D : Type)
  | dir (stamp : Nat)
  | file (data : D) (stamp : Nat)
  | link (target : LinkTarget N)
  deriving DecidableEq, Repr

def Entry.isDir : Entry N D → Bool
  | .dir _ => true
  | _ => false

def Entry.isLink : Entry N D → Bool
  | .link _ => true
  | _ => false

/-- The entry at a real path. The root is a directory. -/
def entryAt (entries : AList (fun _ : List N => Entry N D)) (p : List N) : Option (Entry N D) :=
  if p = [] then some (.dir 0) else entries.lookup p

/-- Is there a directory at a real path? -/
def dirAt (entries : AList (fun _ : List N => Entry N D)) (p : List N) : Bool :=
  (entryAt entries p).any Entry.isDir

structure Tree (N D : Type) [DecidableEq N] where
  entries : AList (fun _ : List N => Entry N D)
  /-- The next stamp. -/
  clock : Nat
  closed : ∀ p n, (entryAt entries (p ++ [n])).isSome = true → dirAt entries p = true

namespace Tree

/-- A tree with nothing below the root. -/
def empty : Tree N D where
  entries := ∅
  clock := 1
  closed p n h := by
    unfold entryAt at h
    rw [if_neg (by simp), AList.lookup_empty] at h
    cases h

def entry (t : Tree N D) (p : List N) : Option (Entry N D) := entryAt t.entries p

def isDir (t : Tree N D) (p : List N) : Bool := dirAt t.entries p

theorem entry_root (t : Tree N D) : t.entry [] = some (.dir 0) := rfl

theorem isDir_eq (t : Tree N D) (p : List N) : t.isDir p = (t.entry p).any Entry.isDir := rfl

theorem isDir_iff {t : Tree N D} {p : List N} :
    t.isDir p = true ↔ ∃ stamp, t.entry p = some (.dir stamp) := by
  rw [isDir_eq]
  cases h : t.entry p with
  | none => simp
  | some e => cases e <;> simp [Entry.isDir]

theorem isDir_parent {t : Tree N D} {p : List N} {n : N} {e : Entry N D}
    (h : t.entry (p ++ [n]) = some e) : t.isDir p = true :=
  t.closed p n (by rw [show entryAt t.entries (p ++ [n]) = some e from h]; rfl)

/-- What is above an entry is a directory. -/
theorem isDir_above {t : Tree N D} {p : List N} : ∀ {q : List N} {e : Entry N D}, q ≠ [] →
    t.entry (p ++ q) = some e → t.isDir p = true := by
  intro q
  induction q using List.reverseRecOn with
  | nil => exact fun hq _ => absurd rfl hq
  | append_singleton q n ih =>
    intro e _ h
    rw [← List.append_assoc] at h
    have hparent := isDir_parent h
    by_cases hq : q = []
    · rw [hq, List.append_nil] at hparent
      exact hparent
    · obtain ⟨stamp, hdir⟩ := isDir_iff.mp hparent
      exact ih hq hdir

theorem isDir_of_append {t : Tree N D} {p q : List N} (h : t.isDir (p ++ q) = true) :
    t.isDir p = true := by
  by_cases hq : q = []
  · rwa [hq, List.append_nil] at h
  · obtain ⟨stamp, hdir⟩ := isDir_iff.mp h
    exact isDir_above hq hdir

/-- There is nothing below what is not there. -/
theorem entry_below_none {t : Tree N D} {p : List N} (h : t.entry p = none) (q : List N) :
    t.entry (p ++ q) = none := by
  by_cases hq : q = []
  · rw [hq, List.append_nil]
    exact h
  · cases hbelow : t.entry (p ++ q) with
    | none => rfl
    | some e =>
      obtain ⟨stamp, hdir⟩ := isDir_iff.mp (isDir_above hq hbelow)
      rw [h] at hdir
      cases hdir

/-! ## Changes at a real place -/

theorem entryAt_insert_self (entries : AList (fun _ : List N => Entry N D)) (p : List N) (n : N)
    (e : Entry N D) : entryAt (entries.insert (p ++ [n]) e) (p ++ [n]) = some e := by
  unfold entryAt
  rw [if_neg (by simp)]
  exact AList.lookup_insert entries

theorem entryAt_insert_ne (entries : AList (fun _ : List N => Entry N D)) {p q : List N}
    (e : Entry N D) (h : q ≠ p) : entryAt (entries.insert p e) q = entryAt entries q := by
  unfold entryAt
  split
  · rfl
  · exact AList.lookup_insert_ne h

theorem entryAt_erase_self (entries : AList (fun _ : List N => Entry N D)) (p : List N) (n : N) :
    entryAt (entries.erase (p ++ [n])) (p ++ [n]) = none := by
  unfold entryAt
  rw [if_neg (by simp)]
  exact AList.lookup_erase _ _

theorem entryAt_erase_ne (entries : AList (fun _ : List N => Entry N D)) {p q : List N} (h : q ≠ p) :
    entryAt (entries.erase p) q = entryAt entries q := by
  unfold entryAt
  split
  · rfl
  · exact AList.lookup_erase_ne h

/-- Put an entry at a place in a directory, where there is no directory. -/
def put (t : Tree N D) (d : List N) (n : N) (e : Entry N D) (hd : t.isDir d = true)
    (hn : t.isDir (d ++ [n]) = false) : Tree N D where
  entries := t.entries.insert (d ++ [n]) e
  clock := t.clock + 1
  closed := by
    intro p m h
    unfold dirAt
    by_cases hpm : p ++ [m] = d ++ [n]
    · obtain ⟨rfl, -⟩ := List.append_inj' hpm rfl
      rw [entryAt_insert_ne _ _ (by simp)]
      exact hd
    · rw [entryAt_insert_ne _ _ hpm] at h
      have hp : t.isDir p = true := t.closed p m h
      have hne : p ≠ d ++ [n] := by
        rintro rfl
        rw [hp] at hn
        cases hn
      rw [entryAt_insert_ne _ _ hne]
      exact hp

/-- Take away the entry at a place that has nothing below it. -/
def remove (t : Tree N D) (d : List N) (n : N)
    (hn : ∀ m, t.entry (d ++ [n] ++ [m]) = none) : Tree N D where
  entries := t.entries.erase (d ++ [n])
  clock := t.clock
  closed := by
    intro p m h
    have hpm : p ++ [m] ≠ d ++ [n] := by
      intro heq
      rw [heq, entryAt_erase_self] at h
      cases h
    rw [entryAt_erase_ne _ hpm] at h
    have hp : p ≠ d ++ [n] := by
      rintro rfl
      rw [show entryAt t.entries (d ++ [n] ++ [m]) = none from hn m] at h
      cases h
    unfold dirAt
    rw [entryAt_erase_ne _ hp]
    exact t.closed p m h

theorem entry_put_self {t : Tree N D} {d : List N} {n : N} {e : Entry N D} (hd : t.isDir d = true)
    (hn : t.isDir (d ++ [n]) = false) : (t.put d n e hd hn).entry (d ++ [n]) = some e :=
  entryAt_insert_self ..

theorem entry_put_ne {t : Tree N D} {d p : List N} {n : N} {e : Entry N D} (hd : t.isDir d = true)
    (hn : t.isDir (d ++ [n]) = false) (h : p ≠ d ++ [n]) :
    (t.put d n e hd hn).entry p = t.entry p :=
  entryAt_insert_ne _ _ h

theorem entry_remove_self {t : Tree N D} {d : List N} {n : N}
    (hn : ∀ m, t.entry (d ++ [n] ++ [m]) = none) : (t.remove d n hn).entry (d ++ [n]) = none :=
  entryAt_erase_self ..

theorem entry_remove_ne {t : Tree N D} {d p : List N} {n : N}
    (hn : ∀ m, t.entry (d ++ [n] ++ [m]) = none) (h : p ≠ d ++ [n]) :
    (t.remove d n hn).entry p = t.entry p :=
  entryAt_erase_ne _ h

/-! ## Trees that differ in part -/

/-- Only entries at and below a place differ. -/
def SameOutside (root : List N) (t t' : Tree N D) : Prop := ∀ p, ¬ root <+: p → t'.entry p = t.entry p

/-- Entries below a directory are gone, and nothing else differs. -/
def Removes (root : List N) (t t' : Tree N D) : Prop :=
  ∀ p, t'.entry p = t.entry p ∨ t'.entry p = none ∧ ∃ q, q ≠ [] ∧ p = root ++ q

variable {root : List N} {t t' t'' : Tree N D}

theorem SameOutside.refl : SameOutside root t t := fun _ _ => rfl

theorem SameOutside.trans (h : SameOutside root t t') (h' : SameOutside root t' t'') :
    SameOutside root t t'' := fun p hp => (h' p hp).trans (h p hp)

theorem Removes.refl : Removes root t t := fun _ => Or.inl rfl

theorem Removes.trans (h : Removes root t t') (h' : Removes root t' t'') : Removes root t t'' := by
  intro p
  rcases h' p with hp | hp
  · rw [hp]
    exact h p
  · exact Or.inr hp

theorem Removes.sameOutside (h : Removes root t t') : SameOutside root t t' := by
  intro p hp
  rcases h p with heq | ⟨-, q, -, rfl⟩
  · exact heq
  · exact absurd (List.prefix_append _ _) hp

theorem Removes.entry_of_some (h : Removes root t t') {p : List N} {e : Entry N D}
    (hp : t'.entry p = some e) : t.entry p = some e := by
  rcases h p with heq | ⟨hgone, -⟩
  · rwa [heq] at hp
  · rw [hgone] at hp
    cases hp

theorem removes_of_gone {q : List N} (hq : q ≠ []) (hgone : t'.entry (root ++ q) = none)
    (hsame : ∀ p, p ≠ root ++ q → t'.entry p = t.entry p) : Removes root t t' := by
  intro p
  by_cases hp : p = root ++ q
  · subst hp
    exact Or.inr ⟨hgone, q, hq, rfl⟩
  · exact Or.inl (hsame p hp)

end Tree

end FileTree
