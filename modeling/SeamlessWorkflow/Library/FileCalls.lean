import SeamlessWorkflow.Library.FilePaths
import SeamlessWorkflow.Library.Program

/-!
# Calls on a file tree

The calls of the operating system on a tree: those that look at it, those that change the entry at one
real place, and `os.makedirs` and `os.walk` over them. A call that fails leaves the tree as it is.
-/

namespace FileTree

variable {N D : Type} [DecidableEq N]

/-- Programs that make calls on a tree. -/
abbrev FileM (N D : Type) [DecidableEq N] := EStateM Errno (Tree N D)

/-! ## Looking -/

namespace Tree

/-- The real place that a path names, its last name not followed. -/
def locate (t : Tree N D) (path : List N) : Except Errno (List N × N) :=
  match path.getLast? with
  | none => .error .isDirectory
  | some n =>
    match t.resolve path.dropLast with
    | .error e => .error e
    | .ok d => if t.isDir d then .ok (d, n) else .error .notDirectory

/-- What `stat` tells: is it a directory, and its stamp. -/
structure Status where
  isDir : Bool
  stamp : Nat
  deriving DecidableEq, Repr

/-- `os.stat`. -/
def stat (t : Tree N D) (path : List N) : Except Errno Status :=
  match t.resolve path with
  | .error e => .error e
  | .ok r =>
    match t.entry r with
    | some (.dir stamp) => .ok ⟨true, stamp⟩
    | some (.file _ stamp) => .ok ⟨false, stamp⟩
    | _ => .error .notFound

/-- `Path.read_bytes`. -/
def read (t : Tree N D) (path : List N) : Except Errno D :=
  match t.resolve path with
  | .error e => .error e
  | .ok r =>
    match t.entry r with
    | some (.dir _) => .error .isDirectory
    | some (.file data _) => .ok data
    | _ => .error .notFound

/-- `os.path.exists`. -/
def pathExists (t : Tree N D) (path : List N) : Bool := (t.stat path).toOption.isSome

/-- `os.path.isdir`. -/
def pathIsDir (t : Tree N D) (path : List N) : Bool := (t.stat path).toOption.any Status.isDir

/-- `os.path.islink`. -/
def pathIsLink (t : Tree N D) (path : List N) : Bool :=
  match t.locate path with
  | .error _ => false
  | .ok (d, n) => (t.entry (d ++ [n])).any Entry.isLink

/-- The entries below a real directory, with their paths from there. -/
def below (t : Tree N D) (r : List N) : List (List N × Entry N D) :=
  t.entries.entries.filterMap fun entry =>
    if r.isPrefixOf entry.1 && decide (r ≠ entry.1) then some (entry.1.drop r.length, entry.2) else none

/-- What `os.walk` lists as files: whatever is not a directory and no link to one. Links to directories
are not followed. -/
def walkFiles (t : Tree N D) (top : List N) : List (List N) :=
  match t.resolve top with
  | .error _ => []
  | .ok r => (t.below r).filterMap fun entry =>
      match entry.2 with
      | .dir _ => none
      | .file .. => some entry.1
      | .link _ => if t.pathIsDir (top ++ entry.1) then none else some entry.1

/-- The directories that `os.walk` goes through, below the first. -/
def walkDirs (t : Tree N D) (top : List N) : List (List N) :=
  match t.resolve top with
  | .error _ => []
  | .ok r => (t.below r).filterMap fun entry => if entry.2.isDir then some entry.1 else none

/-! ## Changing -/

/-- Make an entry where there is none. -/
def makeAt (t : Tree N D) (d : List N) (n : N) (e : Entry N D) : Except Errno (Tree N D) :=
  if h : t.isDir d = true ∧ t.entry (d ++ [n]) = none then
    .ok (t.put d n e h.1 (by rw [isDir_eq, h.2]; rfl))
  else .error .exists

/-- Remove an entry that is not a directory. -/
def removeAt (t : Tree N D) (d : List N) (n : N) : Except Errno (Tree N D) :=
  match h : t.entry (d ++ [n]) with
  | none => .error .notFound
  | some (.dir _) => .error .isDirectory
  | some (.file ..) | some (.link _) => .ok (t.remove d n fun m => by
      cases hbelow : t.entry (d ++ [n] ++ [m]) with
      | none => rfl
      | some e =>
        obtain ⟨stamp, hdir⟩ := isDir_iff.mp (isDir_parent hbelow)
        rw [h] at hdir
        cases hdir)

/-- Remove a directory that is empty. -/
def removeDirAt (t : Tree N D) (d : List N) (n : N) : Except Errno (Tree N D) :=
  if h : t.isDir (d ++ [n]) = true ∧
      t.entries.keys.all (fun p => decide (p.dropLast ≠ d ++ [n])) = true then
    .ok (t.remove d n fun m => by
      have hnone : t.entries.lookup (d ++ [n] ++ [m]) = none := by
        rw [AList.lookup_eq_none]
        intro hmem
        have := List.all_eq_true.mp h.2 _ (AList.mem_keys.mp hmem)
        rw [List.dropLast_concat] at this
        simp at this
      unfold entry entryAt
      rw [if_neg (by simp)]
      exact hnone)
  else .error .notEmpty

/-- Move an entry that is not a directory to a place where there is none either. -/
def moveAt (t : Tree N D) (d : List N) (n : N) (d' : List N) (n' : N) : Except Errno (Tree N D) :=
  match t.entry (d ++ [n]) with
  | none => .error .notFound
  | some e =>
    match t.removeAt d n with
    | .error e => .error e
    | .ok rest =>
      if h : rest.isDir d' = true ∧ rest.isDir (d' ++ [n']) = false then
        .ok (rest.put d' n' e h.1 h.2)
      else .error .isDirectory

/-- The tree is as it was but at one real place. -/
def SameBut (place : List N) (t t' : Tree N D) : Prop := ∀ p, p ≠ place → t'.entry p = t.entry p

theorem makeAt_ok {t t' : Tree N D} {d : List N} {n : N} {e : Entry N D}
    (h : t.makeAt d n e = .ok t') : t.isDir d = true ∧ t.entry (d ++ [n]) = none ∧
      t'.entry (d ++ [n]) = some e ∧ SameBut (d ++ [n]) t t' := by
  unfold makeAt at h
  split at h
  · rename_i hfree
    obtain rfl := Except.ok.inj h
    exact ⟨hfree.1, hfree.2, entry_put_self .., fun p hp => entry_put_ne _ _ hp⟩
  · cases h

theorem removeAt_ok {t t' : Tree N D} {d : List N} {n : N} (h : t.removeAt d n = .ok t') :
    (∃ e, t.entry (d ++ [n]) = some e ∧ e.isDir = false) ∧ t'.entry (d ++ [n]) = none ∧
      SameBut (d ++ [n]) t t' := by
  unfold removeAt at h
  split at h
  · cases h
  · cases h
  · rename_i hentry
    obtain rfl := Except.ok.inj h
    exact ⟨⟨_, hentry, rfl⟩, entry_remove_self _, fun p hp => entry_remove_ne _ hp⟩
  · rename_i hentry
    obtain rfl := Except.ok.inj h
    exact ⟨⟨_, hentry, rfl⟩, entry_remove_self _, fun p hp => entry_remove_ne _ hp⟩

theorem removeDirAt_ok {t t' : Tree N D} {d : List N} {n : N} (h : t.removeDirAt d n = .ok t') :
    t.isDir (d ++ [n]) = true ∧ (∀ m, t.entry (d ++ [n] ++ [m]) = none) ∧
      t'.entry (d ++ [n]) = none ∧ SameBut (d ++ [n]) t t' := by
  unfold removeDirAt at h
  split at h
  · rename_i hempty
    obtain rfl := Except.ok.inj h
    refine ⟨hempty.1, fun m => ?_, entry_remove_self _, fun p hp => entry_remove_ne _ hp⟩
    unfold entry entryAt
    rw [if_neg (by simp), AList.lookup_eq_none]
    intro hmem
    have := List.all_eq_true.mp hempty.2 _ (AList.mem_keys.mp hmem)
    rw [List.dropLast_concat] at this
    simp at this
  · cases h

theorem moveAt_ok {t t' : Tree N D} {d d' : List N} {n n' : N} (h : t.moveAt d n d' n' = .ok t') :
    ∃ e, t.entry (d ++ [n]) = some e ∧ e.isDir = false ∧ t'.entry (d' ++ [n']) = some e ∧
      t.isDir (d' ++ [n']) = false ∧ (d ++ [n] ≠ d' ++ [n'] → t'.entry (d ++ [n]) = none) ∧
      ∀ p, p ≠ d ++ [n] → p ≠ d' ++ [n'] → t'.entry p = t.entry p := by
  unfold moveAt at h
  split at h
  · cases h
  · rename_i e hentry
    split at h
    · cases h
    · rename_i rest hrest
      obtain ⟨⟨e', he', hfile⟩, hgone, hsame⟩ := removeAt_ok hrest
      rw [hentry] at he'
      obtain rfl := Option.some.inj he'
      split at h
      · rename_i hfree
        obtain rfl := Except.ok.inj h
        refine ⟨e, hentry, hfile, entry_put_self .., ?_, fun hne => ?_, fun p hp hp' => ?_⟩
        · by_cases hplace : d' ++ [n'] = d ++ [n]
          · rw [hplace, isDir_eq, hentry]
            exact hfile
          · have := hfree.2
            rwa [isDir_eq, hsame _ hplace] at this
        · rw [entry_put_ne _ _ hne]
          exact hgone
        · rw [entry_put_ne _ _ hp']
          exact hsame p hp
      · cases h

end Tree

/-- A call that changes the tree. -/
def change (f : Tree N D → Except Errno (Tree N D)) : FileM N D Unit := fun t =>
  match f t with
  | .ok t' => .ok () t'
  | .error e => .error e t

/-- A call that changes the entry at the place of a path. -/
def changeAt (path : List N) (f : Tree N D → List N → N → Except Errno (Tree N D)) : FileM N D Unit :=
  change fun t =>
    match t.locate path with
    | .error e => .error e
    | .ok (d, n) => f t d n

/-- `os.mkdir`. -/
def mkdir (path : List N) : FileM N D Unit :=
  changeAt path fun t d n => t.makeAt d n (.dir t.clock)

/-- `open(path, 'xb')` with what is written to it. -/
def create (path : List N) (data : D) : FileM N D Unit :=
  changeAt path fun t d n => t.makeAt d n (.file data t.clock)

/-- `os.unlink`. -/
def unlink (path : List N) : FileM N D Unit := changeAt path Tree.removeAt

/-- `os.rmdir`. -/
def rmdir (path : List N) : FileM N D Unit := changeAt path Tree.removeDirAt

/-- `os.replace`. -/
def replace (source target : List N) : FileM N D Unit :=
  changeAt source fun t d n =>
    match t.locate target with
    | .error e => .error e
    | .ok (d', n') => t.moveAt d n d' n'

/-- `os.mkdir`, where the directory may be there. -/
def mkdirIfMissing (path : List N) : FileM N D Unit :=
  tryCatch (mkdir path) fun e => do
    let t ← get
    if t.pathIsDir path then pure () else throw e

/-- `os.makedirs` with `exist_ok`, over the names of the path from its end. -/
def makedirsFrom : List N → FileM N D Unit
  | [] => pure ()
  | n :: names => do
    let t ← get
    if names ≠ [] ∧ t.pathExists names.reverse = false then
      tryCatch (makedirsFrom names) fun e => if e = .exists then pure () else throw e
    mkdirIfMissing (n :: names).reverse

/-- `os.makedirs(path, exist_ok=True)`. -/
def makedirs (path : List N) : FileM N D Unit := makedirsFrom path.reverse

/-! ## What a call leaves -/

theorem locate_ok {t : Tree N D} {path : List N} {place : List N × N} (h : t.locate path = .ok place) :
    path ≠ [] ∧ path.getLast? = some place.2 ∧ t.resolve path.dropLast = .ok place.1 ∧
      t.isDir place.1 = true := by
  unfold Tree.locate at h
  split at h
  · cases h
  · rename_i n hlast
    split at h
    · cases h
    · rename_i d hd
      split at h
      · rename_i hdir
        obtain rfl := Except.ok.inj h
        refine ⟨?_, hlast, hd, hdir⟩
        rintro rfl
        cases hlast
      · cases h

theorem changeAt_ok {path d : List N} {n : N} {f : Tree N D → List N → N → Except Errno (Tree N D)}
    {t t' : Tree N D} (hplace : t.locate path = .ok (d, n)) (hf : f t d n = .ok t') :
    changeAt path f t = .ok () t' := by
  unfold changeAt change
  dsimp only
  rw [hplace]
  dsimp only
  rw [hf]

/-- A call at a path changes what it changes at the real place, or nothing. -/
theorem changeAt_cases (path : List N) (f : Tree N D → List N → N → Except Errno (Tree N D))
    (t : Tree N D) :
    (∃ errno, changeAt path f t = .error errno t) ∨
      ∃ d n t', t.locate path = .ok (d, n) ∧ f t d n = .ok t' ∧ changeAt path f t = .ok () t' := by
  unfold changeAt change
  dsimp only
  cases hplace : t.locate path with
  | error e => exact Or.inl ⟨e, rfl⟩
  | ok place =>
    obtain ⟨d, n⟩ := place
    dsimp only
    cases hf : f t d n with
    | error e => exact Or.inl ⟨e, rfl⟩
    | ok t' => exact Or.inr ⟨d, n, t', rfl, hf, rfl⟩

namespace Tree

variable {t t' : Tree N D} {path d r : List N} {n : N}

theorem pathIsDir_iff : t.pathIsDir path = true ↔ ∃ r, t.resolve path = .ok r ∧ t.isDir r = true := by
  unfold pathIsDir stat
  cases hr : t.resolve path with
  | error e => simp [Except.toOption]
  | ok r =>
    cases he : t.entry r with
    | none => simp [he, Except.toOption, isDir_eq]
    | some e => cases e <;> simp [he, Except.toOption, isDir_eq, Entry.isDir]

theorem makeAt_eq_ok (hd : t.isDir d = true) (hn : t.entry (d ++ [n]) = none) (e : Entry N D) :
    ∃ t', t.makeAt d n e = .ok t' := by
  unfold makeAt
  rw [dif_pos ⟨hd, hn⟩]
  exact ⟨_, rfl⟩

/-- An entry made where nothing was leaves what is there. -/
theorem makeAt_keeps {e : Entry N D} (h : t.makeAt d n e = .ok t') {p : List N} {e' : Entry N D}
    (hp : t.entry p = some e') : t'.entry p = some e' := by
  obtain ⟨-, hfree, -, hsame⟩ := makeAt_ok h
  rw [hsame p, hp]
  rintro rfl
  rw [hfree] at hp
  cases hp

theorem locate_snoc (h : t.resolve path = .ok d) (hd : t.isDir d = true) :
    t.locate (path ++ [n]) = .ok (d, n) := by
  unfold locate
  rw [List.getLast?_concat, List.dropLast_concat]
  dsimp only
  rw [h]
  dsimp only
  rw [if_pos hd]

/-- The directories of a path were made, from the first place on where nothing was. -/
structure MadeAt (t t' : Tree N D) (first : List N) (n : N) (last d : List N) : Prop where
  start : t.resolve first = .ok d
  dir : t.isDir d = true
  free : t.entry (d ++ [n]) = none
  outside : ∀ p, ¬ d ++ [n] <+: p → t'.entry p = t.entry p
  inside : ∀ p e, d ++ [n] <+: p → t'.entry p = some e → p <+: d ++ n :: last ∧ e.isDir = true
  made : t'.resolve (first ++ n :: last) = .ok (d ++ n :: last)
  isDir : t'.isDir (d ++ n :: last) = true

theorem madeAt_single (h : t.resolve path = .ok d) {stamp : Nat}
    (hmake : t.makeAt d n (.dir stamp) = .ok t') : MadeAt t t' path n [] d := by
  obtain ⟨hd, hfree, hnew, hsame⟩ := makeAt_ok hmake
  have hways : SameWays t t' := fun p e hp _ => makeAt_keeps hmake hp
  refine ⟨h, hd, hfree, fun p hp => hsame p ?_, fun p e hp he => ?_, ?_, isDir_iff.mpr ⟨_, hnew⟩⟩
  · rintro rfl
    exact hp (List.prefix_refl _)
  · obtain ⟨below, rfl⟩ := hp
    by_cases hbelow : below = []
    · subst hbelow
      rw [List.append_nil] at he ⊢
      rw [hnew] at he
      obtain rfl := Option.some.inj he
      exact ⟨List.prefix_refl _, rfl⟩
    · rw [hsame _ (by simpa using hbelow), entry_below_none hfree] at he
      cases he
  · exact resolve_snoc (resolve_sameWays hways h hd) (hways.isDir hd) hnew

/-- The directory that was made last is empty. -/
theorem MadeAt.free_below {first last : List N} (h : MadeAt t t' first n last d) (m : N) :
    t'.entry (d ++ n :: last ++ [m]) = none := by
  cases hentry : t'.entry (d ++ n :: last ++ [m]) with
  | none => rfl
  | some e =>
    have hlength := (h.inside _ e (by simp) hentry).1.length_le
    rw [List.length_append, List.length_singleton] at hlength
    omega

theorem MadeAt.snoc {first last : List N} {m : N} {t'' : Tree N D} {stamp : Nat}
    (h : MadeAt t t' first n last d) (hmake : t'.makeAt (d ++ n :: last) m (.dir stamp) = .ok t'') :
    MadeAt t t'' first n (last ++ [m]) d := by
  obtain ⟨-, hfree, hnew, hsame⟩ := makeAt_ok hmake
  have hways : SameWays t' t'' := fun p e hp _ => makeAt_keeps hmake hp
  have hplace : d ++ n :: (last ++ [m]) = d ++ n :: last ++ [m] := by simp
  refine ⟨h.start, h.dir, h.free, fun p hp => ?_, fun p e hp he => ?_, ?_, ?_⟩
  · rw [hsame p, h.outside p hp]
    rintro rfl
    exact hp (by simp)
  · rw [hplace]
    by_cases hm : p = d ++ n :: last ++ [m]
    · subst hm
      rw [hnew] at he
      obtain rfl := Option.some.inj he
      exact ⟨List.prefix_refl _, rfl⟩
    · rw [hsame p hm] at he
      obtain ⟨hbelow, hdir⟩ := h.inside p e hp he
      exact ⟨hbelow.trans (List.prefix_append _ _), hdir⟩
  · rw [hplace, show first ++ n :: (last ++ [m]) = first ++ n :: last ++ [m] by simp]
    exact resolve_snoc (resolve_sameWays hways h.made h.isDir) (hways.isDir h.isDir) hnew
  · rw [hplace]
    exact isDir_iff.mpr ⟨_, hnew⟩

end Tree

theorem create_cases (path : List N) (data : D) (t : Tree N D) :
    (∃ errno, create path data t = .error errno t) ∨
      ∃ d n t', t.locate path = .ok (d, n) ∧ t.makeAt d n (.file data t.clock) = .ok t' ∧
        create path data t = .ok () t' :=
  changeAt_cases path (fun t d n => t.makeAt d n (.file data t.clock)) t

theorem unlink_cases (path : List N) (t : Tree N D) :
    (∃ errno, unlink path t = .error errno t) ∨
      ∃ d n t', t.locate path = .ok (d, n) ∧ t.removeAt d n = .ok t' ∧ unlink path t = .ok () t' :=
  changeAt_cases path Tree.removeAt t

theorem rmdir_cases (path : List N) (t : Tree N D) :
    (∃ errno, rmdir path t = .error errno t) ∨
      ∃ d n t', t.locate path = .ok (d, n) ∧ t.removeDirAt d n = .ok t' ∧ rmdir path t = .ok () t' :=
  changeAt_cases path Tree.removeDirAt t

theorem replace_cases (source target : List N) (t : Tree N D) :
    (∃ errno, replace source target t = .error errno t) ∨
      ∃ d n d' n' t', t.locate source = .ok (d, n) ∧ t.locate target = .ok (d', n') ∧
        t.moveAt d n d' n' = .ok t' ∧ replace source target t = .ok () t' := by
  rcases changeAt_cases source (fun t d n =>
      match t.locate target with
      | .error e => .error e
      | .ok (d', n') => t.moveAt d n d' n') t with h | ⟨d, n, t', hplace, hrun, h⟩
  · exact Or.inl h
  · cases htarget : t.locate target with
    | error e =>
      rw [htarget] at hrun
      cases hrun
    | ok place =>
      rw [htarget] at hrun
      exact Or.inr ⟨d, n, place.1, place.2, t', hplace, rfl, hrun, h⟩

theorem run_get (t : Tree N D) : (get : FileM N D (Tree N D)) t = .ok t t := rfl

theorem mkdirIfMissing_cases (path : List N) (t : Tree N D) :
    (∃ d n t', t.locate path = .ok (d, n) ∧ t.makeAt d n (.dir t.clock) = .ok t' ∧
      mkdirIfMissing path t = .ok () t') ∨
    (t.pathIsDir path = true ∧ mkdirIfMissing path t = .ok () t) ∨
      t.pathIsDir path = false ∧ ∃ errno, mkdirIfMissing path t = .error errno t := by
  rcases changeAt_cases path (fun t d n => t.makeAt d n (.dir t.clock)) t with
    ⟨errno, h⟩ | ⟨d, n, t', hplace, hmake, h⟩
  · have hcatch : mkdirIfMissing path t = if t.pathIsDir path then .ok () t else .error errno t := by
      refine (Program.tryCatch_error h).trans ((Program.bind_ok (run_get t)).trans ?_)
      split <;> rfl
    rw [hcatch]
    split
    · rename_i hdir
      exact Or.inr (Or.inl ⟨hdir, rfl⟩)
    · rename_i hdir
      exact Or.inr (Or.inr ⟨Bool.eq_false_iff.mpr hdir, errno, rfl⟩)
  · exact Or.inl ⟨d, n, t', hplace, hmake, Program.tryCatch_ok h⟩

/-- The directory of a path whose parent is there. -/
theorem mkdirIfMissing_of_free {t : Tree N D} {path d : List N} {n : N} (h : t.resolve path = .ok d)
    (hd : t.isDir d = true) (hfree : t.entry (d ++ [n]) = none) :
    ∃ t', t.makeAt d n (.dir t.clock) = .ok t' ∧ mkdirIfMissing (path ++ [n]) t = .ok () t' := by
  obtain ⟨t', hmake⟩ := Tree.makeAt_eq_ok hd hfree (.dir t.clock)
  have hmk : mkdir (path ++ [n]) t = .ok () t' := changeAt_ok (Tree.locate_snoc h hd) hmake
  exact ⟨t', hmake, Program.tryCatch_ok hmk⟩

/-- `os.makedirs` raises and leaves the tree, finds a directory, or makes what is missing. -/
theorem makedirsFrom_cases : ∀ (names : List N) (t : Tree N D),
    (∃ errno, makedirsFrom names t = .error errno t) ∨
    (∃ r, makedirsFrom names t = .ok () t ∧ t.resolve names.reverse = .ok r ∧ t.isDir r = true) ∨
      ∃ t' first n last d, makedirsFrom names t = .ok () t' ∧ names.reverse = first ++ n :: last ∧
        Tree.MadeAt t t' first n last d := by
  intro names
  induction names with
  | nil => exact fun t => Or.inr (Or.inl ⟨[], rfl, Tree.resolve_dir rfl, rfl⟩)
  | cons n names ih =>
    intro t
    set parent : FileM N D Unit :=
      if names ≠ [] ∧ t.pathExists names.reverse = false then
        tryCatch (makedirsFrom names) fun e => if e = .exists then pure () else throw e
      else pure () with hparent
    have hrun : makedirsFrom (n :: names) t = (parent >>= fun _ => mkdirIfMissing (n :: names).reverse) t := by
      refine (Program.bind_ok (run_get t)).trans ?_
      rw [hparent]
      split <;> rfl
    -- what the parent leaves, unless it raises
    have hcases : (∃ errno, parent t = .error errno t) ∨ parent t = .ok () t ∨
        ∃ t' first m last d, parent t = .ok () t' ∧ names.reverse = first ++ m :: last ∧
          Tree.MadeAt t t' first m last d := by
      rw [hparent]
      split
      · rcases ih t with ⟨errno, h⟩ | ⟨r, h, -⟩ | ⟨t', first, m, last, d, h, hmade⟩
        · rw [Program.tryCatch_error h]
          by_cases hexists : errno = .exists
          · rw [if_pos hexists]
            exact Or.inr (Or.inl rfl)
          · rw [if_neg hexists]
            exact Or.inl ⟨errno, rfl⟩
        · exact Or.inr (Or.inl (Program.tryCatch_ok h))
        · exact Or.inr (Or.inr ⟨t', first, m, last, d, Program.tryCatch_ok h, hmade⟩)
      · exact Or.inr (Or.inl rfl)
    rw [hrun, List.reverse_cons]
    rcases hcases with ⟨errno, h⟩ | h | ⟨t', first, m, last, d, h, hnames, hmade⟩
    · exact Or.inl ⟨errno, Program.bind_error h⟩
    · rw [Program.bind_ok h]
      rcases mkdirIfMissing_cases (names.reverse ++ [n]) t with
        ⟨d, n', t', hplace, hmake, hmk⟩ | ⟨hdir, hmk⟩ | ⟨-, errno, hmk⟩
      · obtain ⟨-, hlast, hresolve, -⟩ := locate_ok hplace
        rw [List.getLast?_concat] at hlast
        obtain rfl := Option.some.inj hlast
        rw [List.dropLast_concat] at hresolve
        exact Or.inr (Or.inr ⟨t', names.reverse, n, [], d, hmk, rfl, Tree.madeAt_single hresolve hmake⟩)
      · obtain ⟨r, hr, hrdir⟩ := Tree.pathIsDir_iff.mp hdir
        exact Or.inr (Or.inl ⟨r, hmk, hr, hrdir⟩)
      · exact Or.inl ⟨errno, hmk⟩
    · rw [Program.bind_ok h]
      obtain ⟨t'', hmake, hmk⟩ := mkdirIfMissing_of_free hmade.made hmade.isDir (hmade.free_below n)
      rw [← hnames] at hmk
      refine Or.inr (Or.inr ⟨t'', first, m, last ++ [n], d, hmk, ?_, hmade.snoc hmake⟩)
      rw [hnames, List.append_assoc]
      rfl

theorem makedirs_cases (path : List N) (t : Tree N D) :
    (∃ errno, makedirs path t = .error errno t) ∨
    (∃ r, makedirs path t = .ok () t ∧ t.resolve path = .ok r ∧ t.isDir r = true) ∨
      ∃ t' first n last d, makedirs path t = .ok () t' ∧ path = first ++ n :: last ∧
        Tree.MadeAt t t' first n last d := by
  have h := makedirsFrom_cases path.reverse t
  rwa [List.reverse_reverse] at h

theorem makedirsFrom_cons_exists {n : N} {names : List N} {t : Tree N D}
    (hexists : names ≠ [] → t.pathExists names.reverse = true) :
    makedirsFrom (n :: names) t = mkdirIfMissing (n :: names).reverse t := by
  refine (Program.bind_ok (run_get t)).trans ?_
  rw [if_neg (by rintro ⟨hne, hmissing⟩; rw [hexists hne] at hmissing; cases hmissing)]

namespace Tree

variable {t t' : Tree N D} {first path last d r : List N} {n : N}

theorem pathExists_of_resolve (h : t.resolve path = .ok r) (hr : t.isDir r = true) :
    t.pathExists path = true := by
  obtain ⟨stamp, hdir⟩ := isDir_iff.mp hr
  unfold pathExists stat
  rw [h]
  dsimp only
  rw [hdir]
  rfl

/-- A path that goes through a place where nothing is leads nowhere. -/
theorem resolve_of_free (h : t.resolve first = .ok d) (hd : t.isDir d = true)
    (hfree : t.entry (d ++ [n]) = none) : t.resolve (first ++ n :: last) = .error .notFound := by
  obtain ⟨left, -, hleft⟩ := (resolve_eq_ok.mp h).append hd
  unfold resolve
  rw [List.map_append, hleft, List.map_cons, walk_none hfree]

end Tree

/-- `os.makedirs` leaves a directory as it is. -/
theorem makedirs_of_isDir {t : Tree N D} {path r : List N} (h : t.resolve path = .ok r)
    (hr : t.isDir r = true) : makedirs path t = .ok () t := by
  unfold makedirs
  cases path using List.reverseRecOn with
  | nil => rfl
  | append_singleton path n =>
    have hwalk := Tree.resolve_eq_ok.mp h
    rw [List.map_append] at hwalk
    obtain ⟨d, left, hle, hfirst, -, hdir⟩ := hwalk.split rfl rfl
    have hd := hdir (by simp)
    have hpath := Tree.resolve_eq_ok.mpr hfirst
    rw [List.reverse_concat, makedirsFrom_cons_exists fun _ => ?_, List.reverse_cons,
      List.reverse_reverse]
    · rcases mkdirIfMissing_cases (path ++ [n]) t with
        ⟨d', n', t', hplace, hmake, -⟩ | ⟨-, hmk⟩ | ⟨hmissing, -⟩
      · rw [Tree.locate_snoc hpath hd] at hplace
        obtain ⟨rfl, rfl⟩ := Prod.mk.inj (Except.ok.inj hplace)
        rw [Tree.resolve_of_free hpath hd (Tree.makeAt_ok hmake).2.1] at h
        cases h
      · exact hmk
      · rw [Tree.pathIsDir_iff.mpr ⟨r, h, hr⟩] at hmissing
        cases hmissing
    · rw [List.reverse_reverse]
      exact Tree.pathExists_of_resolve hpath hd

namespace Tree

variable {t : Tree N D} {d : List N} {n : N}

end Tree

/-! ## Walks through a directory -/

namespace Tree

variable {t t' : Tree N D} {top r relative : List N}

theorem mem_below {e : Entry N D} (h : (relative, e) ∈ t.below r) :
    relative ≠ [] ∧ t.entry (r ++ relative) = some e := by
  obtain ⟨entry, hentry, hsome⟩ := List.mem_filterMap.mp h
  split at hsome
  · rename_i hbelow
    rw [Bool.and_eq_true, decide_eq_true_eq] at hbelow
    obtain ⟨rest, hrest⟩ := List.isPrefixOf_iff_prefix.mp hbelow.1
    obtain ⟨p, e'⟩ := entry
    dsimp only at hrest hsome hbelow
    subst hrest
    rw [List.drop_left] at hsome
    obtain ⟨rfl, rfl⟩ := Prod.mk.inj (Option.some.inj hsome)
    have hne : rest ≠ [] := by
      rintro rfl
      exact hbelow.2 (List.append_nil r).symm
    refine ⟨hne, ?_⟩
    unfold Tree.entry entryAt
    rw [if_neg (by simp [hne])]
    exact AList.mem_lookup_iff.mpr hentry
  · cases hsome

theorem mem_walkFiles (htop : t.resolve top = .ok r) (h : relative ∈ t.walkFiles top) :
    relative ≠ [] ∧ ∃ e, t.entry (r ++ relative) = some e ∧ e.isDir = false := by
  unfold walkFiles at h
  rw [htop] at h
  obtain ⟨⟨p, e⟩, hbelow, hsome⟩ := List.mem_filterMap.mp h
  obtain ⟨hne, hentry⟩ := mem_below hbelow
  cases e with
  | dir stamp => cases hsome
  | file data stamp =>
    obtain rfl := Option.some.inj hsome
    exact ⟨hne, _, hentry, rfl⟩
  | link target =>
    dsimp only at hsome
    split at hsome
    · cases hsome
    · obtain rfl := Option.some.inj hsome
      exact ⟨hne, _, hentry, rfl⟩

theorem mem_walkDirs (htop : t.resolve top = .ok r) (h : relative ∈ t.walkDirs top) :
    relative ≠ [] ∧ t.isDir (r ++ relative) = true := by
  unfold walkDirs at h
  rw [htop] at h
  obtain ⟨⟨p, e⟩, hbelow, hsome⟩ := List.mem_filterMap.mp h
  obtain ⟨hne, hentry⟩ := mem_below hbelow
  dsimp only at hsome
  split at hsome
  · rename_i hdir
    obtain rfl := Option.some.inj hsome
    exact ⟨hne, by rw [isDir_eq, hentry]; exact hdir⟩
  · cases hsome

/-- After removals below a directory, a path into it leads where it led. -/
theorem locate_below (htop : t.resolve top = .ok r) (hremoved : Removes r t t') {q d : List N} {n n' : N}
    (hq : t.isDir (r ++ q) = true) (h : t'.locate (top ++ (q ++ [n])) = .ok (d, n')) :
    d = r ++ q ∧ n' = n := by
  obtain ⟨-, hlast, hresolve, hdir⟩ := locate_ok h
  rw [← List.append_assoc, List.getLast?_concat] at hlast
  rw [← List.append_assoc, List.dropLast_concat] at hresolve
  have hways : SameWays t' t := fun p e he _ => hremoved.entry_of_some he
  have := resolve_sameWays hways hresolve hdir
  rw [resolve_below htop hq] at this
  exact ⟨(Except.ok.inj this).symm, (Option.some.inj hlast).symm⟩

end Tree

end FileTree
