import SeamlessWorkflow.Library.FileTree
import Mathlib.Data.List.Nodup
import Mathlib.Data.Nat.Find

/-!
# The resolution of paths

A path that a program passes to the operating system is resolved name by name, through the links on its
way. `Walks` is the relation of what is resolved; the operating system gives up after a number of links.
`os.path.realpath` resolves what it can of a path: what is not there it takes by its name, and a link
that leads back to itself stays as it is.
-/

namespace FileTree

variable {N D : Type} [DecidableEq N]

/-- Why the operating system refuses an operation. -/
inductive Errno
  | notFound | notDirectory | tooManyLinks | exists | isDirectory | notEmpty
  deriving DecidableEq, Repr

namespace Tree

/-! ## What the operating system resolves -/

/-- Where the rest of a path starts after a link. -/
def base (at_ : List N) (target : LinkTarget N) : List N := if target.absolute then [] else at_

/-- Resolve steps from a directory. `follow` goes on after a link. -/
def walkFrom (t : Tree N D) (follow : List N → List (LinkStep N) → Except Errno (List N)) :
    List N → List (LinkStep N) → Except Errno (List N)
  | at_, [] => .ok at_
  | at_, .up :: rest => walkFrom t follow at_.dropLast rest
  | at_, .name n :: rest =>
    match t.entry (at_ ++ [n]) with
    | none => .error .notFound
    | some (.dir _) => walkFrom t follow (at_ ++ [n]) rest
    | some (.file ..) => if rest = [] then .ok (at_ ++ [n]) else .error .notDirectory
    | some (.link target) => follow (base at_ target) (target.steps ++ rest)

/-- Resolve steps through a number of links at most. -/
def walk (t : Tree N D) : Nat → List N → List (LinkStep N) → Except Errno (List N)
  | 0 => walkFrom t fun _ _ => .error .tooManyLinks
  | links + 1 => walkFrom t (walk t links)

/-- The links that the operating system follows before it gives up. -/
def maxLinks : Nat := 40

/-- The real path of what a path names. -/
def resolve (t : Tree N D) (path : List N) : Except Errno (List N) :=
  t.walk maxLinks [] (path.map .name)

/-- The steps lead from a directory to a real path, through a number of links at most. -/
inductive Walks (t : Tree N D) : Nat → List N → List (LinkStep N) → List N → Prop
  | done {links : Nat} {at_ : List N} : Walks t links at_ [] at_
  | up {links : Nat} {at_ r : List N} {rest : List (LinkStep N)} (h : Walks t links at_.dropLast rest r) :
      Walks t links at_ (.up :: rest) r
  | dir {links : Nat} {at_ r : List N} {n : N} {rest : List (LinkStep N)} {stamp : Nat}
      (he : t.entry (at_ ++ [n]) = some (.dir stamp)) (h : Walks t links (at_ ++ [n]) rest r) :
      Walks t links at_ (.name n :: rest) r
  | file {links : Nat} {at_ : List N} {n : N} {data : D} {stamp : Nat}
      (he : t.entry (at_ ++ [n]) = some (.file data stamp)) :
      Walks t links at_ [.name n] (at_ ++ [n])
  | link {links : Nat} {at_ r : List N} {n : N} {rest : List (LinkStep N)} {target : LinkTarget N}
      (he : t.entry (at_ ++ [n]) = some (.link target))
      (h : Walks t links (base at_ target) (target.steps ++ rest) r) :
      Walks t (links + 1) at_ (.name n :: rest) r

variable {t t' : Tree N D} {links : Nat} {at_ r : List N} {n : N} {steps rest : List (LinkStep N)}

theorem walk_nil : t.walk links at_ [] = .ok at_ := by
  cases links <;> rfl

theorem walk_up : t.walk links at_ (.up :: rest) = t.walk links at_.dropLast rest := by
  cases links <;> rfl

theorem walk_none (he : t.entry (at_ ++ [n]) = none) :
    t.walk links at_ (.name n :: rest) = .error .notFound := by
  cases links <;> simp only [walk, walkFrom, he]

theorem walk_dir {stamp : Nat} (he : t.entry (at_ ++ [n]) = some (.dir stamp)) :
    t.walk links at_ (.name n :: rest) = t.walk links (at_ ++ [n]) rest := by
  cases links <;> simp only [walk, walkFrom, he]

theorem walk_file {data : D} {stamp : Nat} (he : t.entry (at_ ++ [n]) = some (.file data stamp)) :
    t.walk links at_ (.name n :: rest) = if rest = [] then .ok (at_ ++ [n]) else .error .notDirectory := by
  cases links <;> simp only [walk, walkFrom, he]

theorem walk_link {target : LinkTarget N} (he : t.entry (at_ ++ [n]) = some (.link target)) :
    t.walk (links + 1) at_ (.name n :: rest) = t.walk links (base at_ target) (target.steps ++ rest) := by
  simp only [walk, walkFrom, he]

theorem walk_link_zero {target : LinkTarget N} (he : t.entry (at_ ++ [n]) = some (.link target)) :
    t.walk 0 at_ (.name n :: rest) = .error .tooManyLinks := by
  simp only [walk, walkFrom, he]

theorem Walks.eq_walk (h : Walks t links at_ steps r) : t.walk links at_ steps = .ok r := by
  induction h with
  | done => exact walk_nil
  | up _ ih => rw [walk_up, ih]
  | dir he _ ih => rw [walk_dir he, ih]
  | file he => rw [walk_file he, if_pos rfl]
  | link he _ ih => rw [walk_link he, ih]

/-- The induction over the steps; `hlink` goes on after a link. -/
theorem walks_of_walk_of_link (hlink : ∀ at_ n target rest, t.entry (at_ ++ [n]) = some (.link target) →
    t.walk links at_ (.name n :: rest) = .ok r → Walks t links at_ (.name n :: rest) r) :
    ∀ {steps : List (LinkStep N)} {at_ : List N}, t.walk links at_ steps = .ok r →
      Walks t links at_ steps r := by
  intro steps
  induction steps with
  | nil =>
    intro at_ h
    rw [walk_nil] at h
    exact Except.ok.inj h ▸ .done
  | cons step steps ih =>
    intro at_ h
    cases step with
    | up =>
      rw [walk_up] at h
      exact .up (ih h)
    | name n =>
      cases he : t.entry (at_ ++ [n]) with
      | none =>
        rw [walk_none he] at h
        cases h
      | some e =>
        cases e with
        | dir stamp =>
          rw [walk_dir he] at h
          exact .dir he (ih h)
        | file data stamp =>
          rw [walk_file he] at h
          split at h
          · rename_i hlast
            obtain rfl := Except.ok.inj h
            subst hlast
            exact .file he
          · cases h
        | link target => exact hlink at_ n target steps he h

theorem walks_of_walk : ∀ {links : Nat} {at_ : List N} {steps : List (LinkStep N)},
    t.walk links at_ steps = .ok r → Walks t links at_ steps r := by
  intro links
  induction links with
  | zero =>
    intro at_ steps
    refine walks_of_walk_of_link fun at_ n target rest he h => ?_
    rw [walk_link_zero he] at h
    cases h
  | succ links ih =>
    intro at_ steps
    refine walks_of_walk_of_link fun at_ n target rest he h => ?_
    rw [walk_link he] at h
    exact .link he (ih h)

theorem walk_eq_ok : t.walk links at_ steps = .ok r ↔ Walks t links at_ steps r :=
  ⟨walks_of_walk, Walks.eq_walk⟩

theorem resolve_eq_ok {path : List N} :
    t.resolve path = .ok r ↔ Walks t maxLinks [] (path.map .name) r := walk_eq_ok

/-! ## Parts of a path -/

theorem Walks.mono (h : Walks t links at_ steps r) : ∀ {more : Nat}, links ≤ more →
    Walks t more at_ steps r := by
  induction h with
  | done => exact fun _ => .done
  | up _ ih => exact fun hle => .up (ih hle)
  | dir he _ ih => exact fun hle => .dir he (ih hle)
  | file he => exact fun _ => .file he
  | link he _ ih =>
    intro more hle
    obtain ⟨more, rfl⟩ : ∃ k, more = k + 1 := ⟨more - 1, by omega⟩
    exact .link he (ih (by omega))

theorem Walks.unique {links' : Nat} {r' : List N} (h : Walks t links at_ steps r)
    (h' : Walks t links' at_ steps r') : r = r' := by
  have heq := (h.mono (Nat.le_max_left links links')).eq_walk
  rw [(h'.mono (Nat.le_max_right links links')).eq_walk] at heq
  exact (Except.ok.inj heq).symm

/-- There is a least number of links that a path can be resolved through. -/
theorem Walks.fewest (h : Walks t links at_ steps r) :
    ∃ k, k ≤ links ∧ Walks t k at_ steps r ∧ ∀ j, Walks t j at_ steps r → k ≤ j := by
  classical
  have hsome : ∃ k, Walks t k at_ steps r := ⟨links, h⟩
  exact ⟨Nat.find hsome, Nat.find_min' hsome h, Nat.find_spec hsome, fun j hj => Nat.find_min' hsome hj⟩

theorem walks_link {target : LinkTarget N} (he : t.entry (at_ ++ [n]) = some (.link target)) :
    Walks t links at_ [.name n] r ↔
      ∃ less, links = less + 1 ∧ Walks t less (base at_ target) target.steps r := by
  constructor
  · intro h
    cases h with
    | dir he' _ =>
      rw [he] at he'
      cases he'
    | file he' =>
      rw [he] at he'
      cases he'
    | @link less _ _ _ _ _ he' h =>
      rw [he] at he'
      obtain rfl := Entry.link.inj (Option.some.inj he')
      rw [List.append_nil] at h
      exact ⟨less, rfl, h⟩
  · rintro ⟨less, rfl, h⟩
    exact .link he (by rwa [List.append_nil])

theorem isDir_base {target : LinkTarget N} (hat : t.isDir at_ = true) :
    t.isDir (base at_ target) = true := by
  unfold base
  split
  · rfl
  · exact hat

theorem isDir_dropLast (hat : t.isDir at_ = true) : t.isDir at_.dropLast = true := by
  obtain ⟨last, hlast⟩ := List.dropLast_prefix at_
  exact isDir_of_append (hlast ▸ hat)

/-- A path is resolved part by part. -/
theorem Walks.split (h : Walks t links at_ steps r) : ∀ {first second : List (LinkStep N)},
    steps = first ++ second → t.isDir at_ = true → ∃ m left, left ≤ links ∧ Walks t links at_ first m ∧
      Walks t left m second r ∧ (second ≠ [] → t.isDir m = true) := by
  induction h with
  | done =>
    intro first second hsteps hat
    obtain ⟨rfl, rfl⟩ := List.append_eq_nil_iff.mp hsteps.symm
    exact ⟨_, _, le_rfl, .done, .done, fun hne => absurd rfl hne⟩
  | @up links at_ r rest h ih =>
    intro first second hsteps hat
    cases first with
    | nil => exact ⟨at_, links, le_rfl, .done, List.nil_append second ▸ hsteps ▸ .up h, fun _ => hat⟩
    | cons step first =>
      obtain ⟨rfl, rfl⟩ := List.cons.inj hsteps
      obtain ⟨m, left, hle, hfirst, hsecond, hdir⟩ := ih rfl (isDir_dropLast hat)
      exact ⟨m, left, hle, .up hfirst, hsecond, hdir⟩
  | @dir links at_ r n rest stamp he h ih =>
    intro first second hsteps hat
    cases first with
    | nil => exact ⟨at_, links, le_rfl, .done, List.nil_append second ▸ hsteps ▸ .dir he h, fun _ => hat⟩
    | cons step first =>
      obtain ⟨rfl, rfl⟩ := List.cons.inj hsteps
      obtain ⟨m, left, hle, hfirst, hsecond, hdir⟩ := ih rfl (isDir_iff.mpr ⟨stamp, he⟩)
      exact ⟨m, left, hle, .dir he hfirst, hsecond, hdir⟩
  | @file links at_ n data stamp he =>
    intro first second hsteps hat
    cases first with
    | nil => exact ⟨at_, links, le_rfl, .done, List.nil_append second ▸ hsteps ▸ .file he, fun _ => hat⟩
    | cons step first =>
      obtain ⟨rfl, hrest⟩ := List.cons.inj hsteps
      obtain ⟨rfl, rfl⟩ := List.append_eq_nil_iff.mp hrest.symm
      exact ⟨_, links, le_rfl, .file he, .done, fun hne => absurd rfl hne⟩
  | @link links at_ r n rest target he h ih =>
    intro first second hsteps hat
    cases first with
    | nil => exact ⟨at_, links + 1, le_rfl, .done, List.nil_append second ▸ hsteps ▸ .link he h, fun _ => hat⟩
    | cons step first =>
      obtain ⟨rfl, rfl⟩ := List.cons.inj hsteps
      obtain ⟨m, left, hle, hfirst, hsecond, hdir⟩ := ih (List.append_assoc ..).symm (isDir_base hat)
      exact ⟨m, left, by omega, .link he hfirst, hsecond, hdir⟩

/-- What is resolved is there, and not a link. -/
theorem Walks.entry (h : Walks t links at_ steps r) :
    t.isDir at_ = true → ∃ e, t.entry r = some e ∧ e.isLink = false := by
  induction h with
  | done =>
    intro hat
    obtain ⟨stamp, hdir⟩ := isDir_iff.mp hat
    exact ⟨_, hdir, rfl⟩
  | up _ ih => exact fun hat => ih (isDir_dropLast hat)
  | dir he _ ih => exact fun _ => ih (isDir_iff.mpr ⟨_, he⟩)
  | file he => exact fun _ => ⟨_, he, rfl⟩
  | link _ _ ih => exact fun hat => ih (isDir_base hat)

/-- The directories and the links of one tree are in the other. -/
def SameWays (t t' : Tree N D) : Prop :=
  ∀ p e, t.entry p = some e → (e.isDir || e.isLink) = true → t'.entry p = some e

theorem SameWays.isDir (h : SameWays t t') {p : List N} (hp : t.isDir p = true) : t'.isDir p = true := by
  obtain ⟨stamp, hdir⟩ := isDir_iff.mp hp
  exact isDir_iff.mpr ⟨stamp, h p _ hdir rfl⟩

/-- A path to a directory leads there in every tree that has the directories and the links of this
one. -/
theorem Walks.traverses (h : Walks t links at_ steps r) (hsame : SameWays t t') :
    t.isDir r = true → Walks t' links at_ steps r := by
  induction h with
  | done => exact fun _ => .done
  | up _ ih => exact fun hr => .up (ih hr)
  | dir he _ ih => exact fun hr => .dir (hsame _ _ he rfl) (ih hr)
  | file he =>
    intro hr
    obtain ⟨stamp, hdir⟩ := isDir_iff.mp hr
    rw [he] at hdir
    cases hdir
  | link he _ ih => exact fun hr => .link (hsame _ _ he rfl) (ih hr)

/-- A path goes on from the directory that its beginning leads to. -/
theorem Walks.append (h : Walks t links at_ steps r) :
    t.isDir r = true → ∃ left, left ≤ links ∧ ∀ rest, t.walk links at_ (steps ++ rest) = t.walk left r rest := by
  induction h with
  | @done links at_ => exact fun _ => ⟨links, le_rfl, fun _ => rfl⟩
  | up _ ih =>
    intro hr
    obtain ⟨left, hle, hleft⟩ := ih hr
    exact ⟨left, hle, fun rest => by rw [List.cons_append, walk_up, hleft]⟩
  | dir he _ ih =>
    intro hr
    obtain ⟨left, hle, hleft⟩ := ih hr
    exact ⟨left, hle, fun rest => by rw [List.cons_append, walk_dir he, hleft]⟩
  | file he =>
    intro hr
    obtain ⟨stamp, hdir⟩ := isDir_iff.mp hr
    rw [he] at hdir
    cases hdir
  | link he _ ih =>
    intro hr
    obtain ⟨left, hle, hleft⟩ := ih hr
    exact ⟨left, by omega, fun rest => by
      rw [List.cons_append, walk_link he, ← List.append_assoc, hleft]⟩

/-- Names along directories are resolved one by one. -/
theorem walk_dirs : ∀ (names : List N) {at_ : List N}, t.isDir (at_ ++ names) = true →
    t.walk links at_ (names.map .name ++ rest) = t.walk links (at_ ++ names) rest := by
  intro names
  induction names with
  | nil =>
    intro at_ _
    rw [List.append_nil]
    rfl
  | cons n names ih =>
    intro at_ h
    rw [List.append_cons] at h ⊢
    obtain ⟨stamp, hdir⟩ := isDir_iff.mp (isDir_of_append h)
    rw [List.map_cons, List.cons_append, walk_dir hdir]
    exact ih h

theorem resolve_dirs {p : List N} (h : t.isDir p = true) (rest : List N) :
    t.resolve (p ++ rest) = t.walk maxLinks p (rest.map .name) := by
  unfold resolve
  rw [List.map_append]
  exact walk_dirs p h

/-- A real directory is where its path says. -/
theorem resolve_dir {p : List N} (h : t.isDir p = true) : t.resolve p = .ok p := by
  have := resolve_dirs h []
  rw [List.append_nil] at this
  rw [this]
  exact walk_nil

theorem resolve_sameWays (hsame : SameWays t t') {p : List N} (h : t.resolve p = .ok r)
    (hr : t.isDir r = true) : t'.resolve p = .ok r :=
  resolve_eq_ok.mpr ((resolve_eq_ok.mp h).traverses hsame hr)

theorem resolve_snoc {p : List N} (h : t.resolve p = .ok r) (hr : t.isDir r = true) {stamp : Nat}
    (he : t.entry (r ++ [n]) = some (.dir stamp)) : t.resolve (p ++ [n]) = .ok (r ++ [n]) := by
  obtain ⟨left, -, hleft⟩ := (resolve_eq_ok.mp h).append hr
  unfold resolve
  rw [List.map_append, hleft, List.map_singleton, walk_dir he, walk_nil]

/-- Below a directory that a path leads to, directories are found by their names. -/
theorem resolve_below {p q : List N} (h : t.resolve p = .ok r) (hq : t.isDir (r ++ q) = true) :
    t.resolve (p ++ q) = .ok (r ++ q) := by
  obtain ⟨left, -, hleft⟩ := (resolve_eq_ok.mp h).append (isDir_of_append hq)
  have hdirs := @walk_dirs _ _ _ t left [] q r hq
  unfold resolve
  rw [List.append_nil] at hdirs
  rw [List.map_append, hleft, hdirs, walk_nil]

/-- A path that leads elsewhere goes through a link that can be resolved. -/
theorem Walks.link_of_ne : ∀ {names : List N} {at_ : List N}, Walks t links at_ (names.map .name) r →
    t.isDir at_ = true → r ≠ at_ ++ names →
      ∃ first n last m target, names = first ++ n :: last ∧
        t.entry (at_ ++ first ++ [n]) = some (.link target) ∧ Walks t links (at_ ++ first) [.name n] m := by
  intro names
  induction names with
  | nil =>
    intro at_ h _ hne
    cases h
    exact absurd (List.append_nil _).symm hne
  | cons n names ih =>
    intro at_ h hat hne
    rw [List.map_cons] at h
    generalize hrest : names.map LinkStep.name = rest at h
    cases h with
    | file he =>
      rw [List.map_eq_nil_iff.mp hrest] at hne
      exact absurd rfl hne
    | dir he h =>
      subst hrest
      rw [List.append_cons] at hne
      obtain ⟨first, m, last, r', target, rfl, hlink, hwalk⟩ := ih h (isDir_iff.mpr ⟨_, he⟩) hne
      rw [← List.append_cons] at hlink hwalk
      exact ⟨n :: first, m, last, r', target, rfl, hlink, hwalk⟩
    | link he h =>
      obtain ⟨m, left, -, hfirst, -, -⟩ := (Walks.link he h).split (List.singleton_append ..).symm hat
      exact ⟨[], n, names, m, _, rfl, by rwa [List.append_nil], by rwa [List.append_nil]⟩

/-! ## `realpath` -/

/-- Resolve steps as `os.path.realpath` does. `follow` tells where a link leads. -/
def realFrom (t : Tree N D) (follow : List N → N → LinkTarget N → List N) :
    List N → List (LinkStep N) → List N
  | at_, [] => at_
  | at_, .up :: rest => realFrom t follow at_.dropLast rest
  | at_, .name n :: rest =>
    match t.entry (at_ ++ [n]) with
    | some (.link target) => realFrom t follow (follow at_ n target) rest
    | _ => realFrom t follow (at_ ++ [n]) rest

/-- The same within links that are met on the way: one that is met again stays as it is. -/
def real (t : Tree N D) : Nat → List (List N) → List N → List (LinkStep N) → List N
  | 0, _ => realFrom t fun at_ n _ => at_ ++ [n]
  | depth + 1, met => realFrom t fun at_ n target =>
    if at_ ++ [n] ∈ met then at_ ++ [n]
    else real t depth ((at_ ++ [n]) :: met) (base at_ target) target.steps

/-- The places of the links. -/
def linkPlaces (t : Tree N D) : List (List N) :=
  (t.entries.entries.filter fun entry => entry.2.isLink).map Sigma.fst

/-- `os.path.realpath`. Links are met within one another at most as deep as there are links. -/
def realpath (t : Tree N D) (path : List N) : List N :=
  t.real t.linkPlaces.length [] [] (path.map .name)

theorem mem_linkPlaces {p : List N} {target : LinkTarget N} (h : t.entry p = some (.link target)) :
    p ∈ t.linkPlaces := by
  unfold entry entryAt at h
  split at h
  · cases h
  · refine List.mem_map.mpr ⟨⟨p, .link target⟩, ?_, rfl⟩
    exact List.mem_filter.mpr ⟨AList.mem_lookup_iff.mp h, rfl⟩

/-- There is depth left for the links that have not been met. -/
structure Deep (t : Tree N D) (depth : Nat) (met : List (List N)) : Prop where
  nodup : met.Nodup
  links : met ⊆ t.linkPlaces
  enough : t.linkPlaces.length ≤ depth + met.length

theorem deep_nil : Deep t t.linkPlaces.length [] :=
  ⟨List.nodup_nil, List.nil_subset _, Nat.le_add_right ..⟩

theorem Deep.meet {depth : Nat} {met : List (List N)} (h : Deep t depth met) {p : List N}
    {target : LinkTarget N} (hp : t.entry p = some (.link target)) (hmet : p ∉ met) :
    ∃ less, depth = less + 1 ∧ Deep t less (p :: met) := by
  have hnodup := List.nodup_cons.mpr ⟨hmet, h.nodup⟩
  have hlinks := List.cons_subset.mpr ⟨mem_linkPlaces hp, h.links⟩
  have hlength := (List.subperm_of_subset hnodup hlinks).length_le
  have henough := h.enough
  rw [List.length_cons] at hlength
  obtain ⟨less, rfl⟩ : ∃ less, depth = less + 1 := ⟨depth - 1, by omega⟩
  exact ⟨less, rfl, hnodup, hlinks, by rw [List.length_cons]; omega⟩

variable {depth : Nat} {met : List (List N)}

theorem real_nil : t.real depth met at_ [] = at_ := by
  cases depth <;> rfl

theorem real_up : t.real depth met at_ (.up :: rest) = t.real depth met at_.dropLast rest := by
  cases depth <;> rfl

theorem real_name (he : (t.entry (at_ ++ [n])).any Entry.isLink = false) :
    t.real depth met at_ (.name n :: rest) = t.real depth met (at_ ++ [n]) rest := by
  cases hentry : t.entry (at_ ++ [n]) with
  | none => cases depth <;> simp only [real, realFrom, hentry]
  | some e =>
    cases e with
    | link target =>
      rw [hentry] at he
      cases he
    | dir stamp => cases depth <;> simp only [real, realFrom, hentry]
    | file data stamp => cases depth <;> simp only [real, realFrom, hentry]

theorem isLink_eq_false {p : List N} (h : ¬ ∃ target, t.entry p = some (.link target)) :
    (t.entry p).any Entry.isLink = false := by
  cases hentry : t.entry p with
  | none => rfl
  | some e =>
    cases e with
    | link target => exact absurd ⟨target, hentry⟩ h
    | dir stamp => rfl
    | file data stamp => rfl

theorem real_link {target : LinkTarget N} (he : t.entry (at_ ++ [n]) = some (.link target))
    (hmet : at_ ++ [n] ∉ met) : t.real (depth + 1) met at_ (.name n :: rest) =
      t.real (depth + 1) met (t.real depth ((at_ ++ [n]) :: met) (base at_ target) target.steps) rest := by
  simp only [real, realFrom, he, if_neg hmet]

theorem real_met {target : LinkTarget N} (he : t.entry (at_ ++ [n]) = some (.link target))
    (hmet : at_ ++ [n] ∈ met) :
    t.real depth met at_ (.name n :: rest) = t.real depth met (at_ ++ [n]) rest := by
  cases depth <;> simp only [real, realFrom, he, if_pos hmet]

/-- Below a place where nothing is, a path is taken as it is. -/
theorem real_of_none : ∀ {names : List N} {at_ : List N} {n : N}, t.entry (at_ ++ [n]) = none →
    t.real depth met at_ ((n :: names).map .name) = at_ ++ n :: names := by
  intro names
  induction names with
  | nil =>
    intro at_ n h
    rw [List.map_cons, real_name (by rw [h]; rfl), List.map_nil, real_nil]
  | cons m names ih =>
    intro at_ n h
    rw [List.map_cons, real_name (by rw [h]; rfl), ih (entry_below_none h [m]), List.append_assoc]
    rfl

/-- The link at a place cannot be resolved through so many links. -/
def Unresolved (t : Tree N D) (links : Nat) (place : List N) : Prop :=
  ∀ d n r, place = d ++ [n] → ¬ Walks t links d [.name n] r

theorem Unresolved.mono {links less : Nat} {place : List N} (h : Unresolved t links place)
    (hle : less ≤ links) : Unresolved t less place :=
  fun d n r hplace hwalk => h d n r hplace (hwalk.mono hle)

/-- `realpath` goes on from where the operating system gets to: a link that can be resolved is not met
within itself, as it would need more links than it has. -/
theorem real_append : ∀ {links : Nat} {steps : List (LinkStep N)} {at_ r : List N} {depth : Nat}
    {met : List (List N)}, Walks t links at_ steps r → t.isDir at_ = true → Deep t depth met →
      (∀ place ∈ met, Unresolved t links place) →
        ∀ rest, t.real depth met at_ (steps ++ rest) = t.real depth met r rest := by
  intro links
  induction links using Nat.strong_induction_on with
  | _ links ihlinks =>
    intro steps
    induction steps with
    | nil =>
      intro at_ r depth met h _ _ _ rest
      cases h
      rfl
    | cons step steps ih =>
      intro at_ r depth met h hat hdeep hmet rest
      rw [List.cons_append]
      cases step with
      | up =>
        cases h with
        | up h =>
          rw [real_up]
          exact ih h (isDir_dropLast hat) hdeep hmet rest
      | name n =>
        cases h with
        | dir he h =>
          rw [real_name (by rw [he]; rfl)]
          exact ih h (isDir_iff.mpr ⟨_, he⟩) hdeep hmet rest
        | file he =>
          rw [real_name (by rw [he]; rfl)]
          rfl
        | @link links _ _ _ _ target he h =>
          obtain ⟨m, left, hle, hfirst, hsecond, hdir⟩ := h.split rfl (isDir_base hat)
          have hnot : at_ ++ [n] ∉ met :=
            fun hmem => hmet _ hmem at_ n m rfl ((walks_link he).mpr ⟨links, rfl, hfirst⟩)
          obtain ⟨less, rfl, hless⟩ := hdeep.meet he hnot
          obtain ⟨k, hk, hfewest, hmin⟩ := hfirst.fewest
          have hunresolved : ∀ place ∈ (at_ ++ [n]) :: met, Unresolved t k place := by
            intro place hplace
            rcases List.mem_cons.mp hplace with rfl | hplace
            · intro d n' r' hd hwalk
              obtain ⟨rfl, hn⟩ := List.append_inj' hd rfl
              obtain rfl := List.singleton_inj.mp hn
              obtain ⟨j, rfl, hj⟩ := (walks_link he).mp hwalk
              have := hmin j (hj.unique hfirst ▸ hj)
              omega
            · exact (hmet place hplace).mono (by omega)
          have hleads := ihlinks k (by omega) hfewest (isDir_base hat) hless hunresolved []
          rw [List.append_nil, real_nil] at hleads
          rw [real_link he hnot, hleads]
          by_cases hsteps : steps = []
          · subst hsteps
            cases hsecond
            rfl
          · exact ihlinks left (by omega) hsecond (hdir hsteps) hdeep
              (fun place hplace => (hmet place hplace).mono (by omega)) rest

theorem realpath_append {path rest : List N} (h : t.resolve path = .ok r) :
    t.realpath (path ++ rest) = t.real t.linkPlaces.length [] r (rest.map .name) := by
  unfold realpath
  rw [List.map_append]
  exact real_append (resolve_eq_ok.mp h) rfl deep_nil (fun _ hp => absurd hp List.not_mem_nil) _

/-- The links on the way of a path cannot be resolved. -/
def Clean (t : Tree N D) (p : List N) : Prop :=
  ∀ q target, q <+: p → t.entry q = some (.link target) → Unresolved t maxLinks q

theorem clean_of_entry {p : List N} {e : Entry N D} (h : t.entry p = some e) (he : e.isLink = false) :
    Clean t p := by
  rintro q target ⟨last, rfl⟩ hq
  by_cases hlast : last = []
  · subst hlast
    rw [List.append_nil, hq] at h
    obtain rfl := Option.some.inj h
    cases he
  · obtain ⟨stamp, hdir⟩ := isDir_iff.mp (isDir_above hlast h)
    rw [hq] at hdir
    cases hdir

theorem clean_base {target : LinkTarget N} (h : Clean t at_) : Clean t (base at_ target) := by
  unfold base
  split
  · exact clean_of_entry t.entry_root rfl
  · exact h

theorem Clean.dropLast {p : List N} (h : Clean t p) : Clean t p.dropLast :=
  fun q target hq => h q target (hq.trans (List.dropLast_prefix p))

theorem Clean.snoc {p : List N} (h : Clean t p)
    (hn : ∀ target, t.entry (p ++ [n]) = some (.link target) → Unresolved t maxLinks (p ++ [n])) :
    Clean t (p ++ [n]) := by
  intro q target hq hlink
  rcases List.prefix_concat_iff.mp hq with rfl | hq
  · exact hn target hlink
  · exact h q target hq hlink

/-- What is left of the links in a real path are those that lead back to themselves. -/
theorem real_clean : ∀ {depth : Nat} {met : List (List N)} {steps : List (LinkStep N)} {at_ : List N},
    Deep t depth met → (∀ place ∈ met, Unresolved t maxLinks place) → Clean t at_ →
      Clean t (t.real depth met at_ steps) := by
  intro depth
  induction depth using Nat.strong_induction_on with
  | _ depth ihdepth =>
    intro met steps
    induction steps with
    | nil => exact fun _ _ hat => by rwa [real_nil]
    | cons step steps ih =>
      intro at_ hdeep hmet hat
      cases step with
      | up =>
        rw [real_up]
        exact ih hdeep hmet hat.dropLast
      | name n =>
        by_cases hlink : ∃ target, t.entry (at_ ++ [n]) = some (.link target)
        · obtain ⟨target, he⟩ := hlink
          by_cases hplace : at_ ++ [n] ∈ met
          · rw [real_met he hplace]
            exact ih hdeep hmet (hat.snoc fun _ _ => hmet _ hplace)
          · by_cases hun : Unresolved t maxLinks (at_ ++ [n])
            · obtain ⟨less, rfl, hless⟩ := hdeep.meet he hplace
              rw [real_link he hplace]
              refine ih hdeep hmet (ihdepth less (Nat.lt_succ_self less) hless ?_ (clean_base hat))
              exact fun place hmem => (List.mem_cons.mp hmem).elim (· ▸ hun) (hmet place)
            · unfold Unresolved at hun
              push Not at hun
              obtain ⟨d, n', m, hd, hwalk⟩ := hun
              obtain ⟨rfl, hn⟩ := List.append_inj' hd rfl
              obtain rfl := List.singleton_inj.mp hn
              have hdir := isDir_parent he
              have hleads := real_append hwalk hdir hdeep hmet steps
              rw [List.singleton_append] at hleads
              rw [hleads]
              obtain ⟨e, hm, hfile⟩ := hwalk.entry hdir
              exact ih hdeep hmet (clean_of_entry hm hfile)
        · rw [real_name (isLink_eq_false hlink)]
          exact ih hdeep hmet (hat.snoc fun target he => absurd ⟨target, he⟩ hlink)

theorem realpath_clean (t : Tree N D) (path : List N) : Clean t (t.realpath path) :=
  real_clean deep_nil (fun _ hp => absurd hp List.not_mem_nil) (clean_of_entry t.entry_root rfl)

/-- A path that leads to a directory elsewhere is no beginning of a real path. -/
theorem not_prefix_realpath {p : List N} (h : t.resolve p = .ok r) (hne : r ≠ p) (path : List N) :
    ¬ p <+: t.realpath path := by
  intro hp
  obtain ⟨first, n, last, m, target, rfl, hlink, hwalk⟩ :=
    (resolve_eq_ok.mp h).link_of_ne rfl (by rwa [List.nil_append])
  rw [List.nil_append] at hlink hwalk
  rw [List.append_cons] at hp
  exact realpath_clean t path _ target ((List.prefix_append _ _).trans hp) hlink first n m rfl hwalk

end Tree

end FileTree
