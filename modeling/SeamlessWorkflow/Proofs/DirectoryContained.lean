import SeamlessWorkflow.Attachments.Directory

/-!
# What a directory delivery changes

Delivery checks the path of each leaf before it writes it, with all its links resolved, and it works on
the mount path as it is by then. What it changes are the places that the paths lead to, with the last
name not followed. So it stays inside the directory that the mount path named when it was reserved
exactly when the mount path still leads there and no leaf is a link back into the mount from elsewhere.
-/

namespace SeamlessWorkflow

namespace DirectoryMount

open FileTree Program

variable {V : Type}

/-! ## Runs -/

theorem call_ok {α : Type} {m : FileM Name Bytes α} {a : α} {t t' : Files} (h : m t = .ok a t') :
    call m t = .ok a t' := by
  unfold call
  rw [h]

theorem call_error {α : Type} {m : FileM Name Bytes α} {errno : Errno} {t t' : Files}
    (h : m t = .error errno t') : call m t = .error (.os errno) t' := by
  unfold call
  rw [h]

theorem look_ok {α : Type} {f : Files → Except Failure α} {a : α} {t : Files} (h : f t = .ok a) :
    look f t = .ok a t := by
  unfold look
  rw [h]

theorem look_error {α : Type} {f : Files → Except Failure α} {e : Failure} {t : Files}
    (h : f t = .error e) : look f t = .error e t := by
  unfold look
  rw [h]

theorem keeps_call {α : Type} {I : Files → Prop} {m : FileM Name Bytes α}
    (h : ∀ t, I t → I (finalState (m t))) : Keeps I (call m) := by
  intro t ht
  have := h t ht
  unfold call
  cases hm : m t with
  | ok a t' => rwa [hm] at this
  | error errno t' => rwa [hm] at this

theorem inspects_look {α : Type} {f : Files → Except Failure α} :
    Inspects (look f) fun a t => f t = .ok a := by
  intro P t ht
  unfold look
  cases hf : f t with
  | ok a => exact ⟨ht, hf⟩
  | error e => exact ht

theorem triple_andFinally {α : Type} {P I : Files → Prop} {body : M α} {cleanup : M Unit}
    (hbody : Triple P body (fun _ => I) I) (hcleanup : Keeps I cleanup) :
    Triple P (andFinally body cleanup) (fun _ => I) I := by
  intro t ht
  have hb := hbody t ht
  unfold andFinally
  cases hrun : body t with
  | ok a t' =>
    rw [hrun] at hb
    have hc := hcleanup t' hb
    dsimp only
    cases hclean : cleanup t' with
    | ok _ t'' => rwa [hclean] at hc
    | error e t'' => rwa [hclean] at hc
  | error e t' =>
    rw [hrun] at hb
    have hc := hcleanup t' hb
    dsimp only
    cases hclean : cleanup t' with
    | ok _ t'' => rwa [hclean] at hc
    | error e t'' => rwa [hclean] at hc

/-! ## The write of one file -/

/-- The entries at two places of a directory may differ, but no link or directory is new, and the
directories are still there. -/
structure Wrote (d : List Name) (tmp n : Name) (t t' : Files) : Prop where
  same : ∀ p, p ≠ d ++ [tmp] → p ≠ d ++ [n] → t'.entry p = t.entry p
  ways : Tree.SameWays t' t
  dirs : ∀ p, t.isDir p = true → t'.isDir p = true

section Wrote

variable {d : List Name} {tmp n : Name} {t t' t'' : Files}

theorem Wrote.refl : Wrote d tmp n t t := ⟨fun _ _ _ => rfl, fun _ _ h _ => h, fun _ h => h⟩

theorem Wrote.trans (h : Wrote d tmp n t t') (h' : Wrote d tmp n t' t'') : Wrote d tmp n t t'' where
  same p hp hp' := (h'.same p hp hp').trans (h.same p hp hp')
  ways p e he hway := h.ways p e (h'.ways p e he hway) hway
  dirs p hp := h'.dirs p (h.dirs p hp)

/-- The directory is still the one that the path leads to. -/
theorem Wrote.locate (h : Wrote d tmp n t t') {path : List Name} (hd : t.resolve path = .ok d)
    {m m' : Name} {d' : List Name} (hplace : t'.locate (path ++ [m]) = .ok (d', m')) :
    d' = d ∧ m' = m := by
  obtain ⟨-, hlast, hresolve, hdir⟩ := locate_ok hplace
  rw [List.getLast?_concat] at hlast
  rw [List.dropLast_concat] at hresolve
  have := Tree.resolve_sameWays h.ways hresolve hdir
  rw [hd] at this
  exact ⟨(Except.ok.inj this).symm, (Option.some.inj hlast).symm⟩

theorem wrote_create {data : Bytes} {stamp : Nat} (h : t.makeAt d tmp (.file data stamp) = .ok t') :
    Wrote d tmp n t t' := by
  obtain ⟨-, hfree, hnew, hsame⟩ := Tree.makeAt_ok h
  refine ⟨fun p hp _ => hsame p hp, fun p e he hway => ?_, fun p hp => ?_⟩
  · by_cases hp : p = d ++ [tmp]
    · subst hp
      rw [hnew] at he
      obtain rfl := Option.some.inj he
      cases hway
    · rwa [hsame p hp] at he
  · obtain ⟨stamp, hdir⟩ := Tree.isDir_iff.mp hp
    exact Tree.isDir_iff.mpr ⟨stamp, Tree.makeAt_keeps h hdir⟩

theorem wrote_unlink (h : t.removeAt d tmp = .ok t') : Wrote d tmp n t t' := by
  obtain ⟨⟨e, he, hfile⟩, hgone, hsame⟩ := Tree.removeAt_ok h
  refine ⟨fun p hp _ => hsame p hp, fun p e' he' _ => ?_, fun p hp => ?_⟩
  · by_cases hp : p = d ++ [tmp]
    · subst hp
      rw [hgone] at he'
      cases he'
    · rwa [hsame p hp] at he'
  · rw [Tree.isDir_eq, hsame p ?_]
    · exact hp
    · rintro rfl
      rw [Tree.isDir_eq, he, Option.any_some, hfile] at hp
      cases hp

theorem wrote_replace {data : Bytes} {stamp : Nat} (htmp : t.entry (d ++ [tmp]) = some (.file data stamp))
    (h : t.moveAt d tmp d n = .ok t') : Wrote d tmp n t t' := by
  obtain ⟨e, he, -, hnew, hnot, hgone, hsame⟩ := Tree.moveAt_ok h
  rw [htmp] at he
  obtain rfl := Option.some.inj he
  refine ⟨hsame, fun p e he hway => ?_, fun p hp => ?_⟩
  · by_cases hn : p = d ++ [n]
    · subst hn
      rw [hnew] at he
      obtain rfl := Option.some.inj he
      cases hway
    · by_cases hp : p = d ++ [tmp]
      · subst hp
        rw [hgone hn] at he
        cases he
      · rwa [hsame p hp hn] at he
  · obtain ⟨stamp', hdir⟩ := Tree.isDir_iff.mp hp
    rw [Tree.isDir_eq, hsame p ?_ ?_]
    · exact hp
    · rintro rfl
      rw [htmp] at hdir
      cases hdir
    · rintro rfl
      rw [hp] at hnot
      cases hnot

end Wrote

section AtomicWrite

variable {pk : Packages V} {t : Files} {parent d : List Name} {tmp n : Name}

theorem keeps_unlinkIfFound (hd : t.resolve parent = .ok d) :
    Keeps (Wrote d tmp n t) (unlinkIfFound (parent ++ [tmp])) := by
  refine Keeps.tryCatch (keeps_call fun s hs => ?_) fun e => Keeps.ite Keeps.pure Keeps.throw
  rcases unlink_cases (parent ++ [tmp]) s with ⟨errno, h⟩ | ⟨d', n', s', hplace, hrun, h⟩
  · rwa [h]
  · obtain ⟨rfl, rfl⟩ := hs.locate hd hplace
    rw [h]
    exact hs.trans (wrote_unlink hrun)

theorem triple_create (hd : t.resolve parent = .ok d) (data : Bytes) :
    Triple (· = t) (call (create (parent ++ [tmp]) data))
      (fun _ s => Wrote d tmp n t s ∧ ∃ data stamp, s.entry (d ++ [tmp]) = some (.file data stamp))
      (Wrote d tmp n t) := by
  rintro s rfl
  rcases create_cases (parent ++ [tmp]) data s with ⟨errno, h⟩ | ⟨d', n', s', hplace, hrun, h⟩
  · rw [call_error h]
    exact Wrote.refl
  · obtain ⟨rfl, rfl⟩ := (Wrote.refl : Wrote d tmp n s s).locate hd hplace
    rw [call_ok h]
    exact ⟨wrote_create hrun, _, _, (Tree.makeAt_ok hrun).2.2.1⟩

theorem triple_replace (hd : t.resolve parent = .ok d) :
    Triple (fun s => Wrote d tmp n t s ∧ ∃ data stamp, s.entry (d ++ [tmp]) = some (.file data stamp))
      (call (replace (parent ++ [tmp]) (parent ++ [n]))) (fun _ => Wrote d tmp n t) (Wrote d tmp n t) := by
  rintro s ⟨hs, data, stamp, htmp⟩
  rcases replace_cases (parent ++ [tmp]) (parent ++ [n]) s with
    ⟨errno, h⟩ | ⟨d', n', d'', n'', s', hplace, htarget, hrun, h⟩
  · rw [call_error h]
    exact hs
  · rw [call_ok h]
    obtain ⟨rfl, rfl⟩ := hs.locate hd hplace
    obtain ⟨rfl, rfl⟩ := hs.locate hd htarget
    exact hs.trans (wrote_replace htmp hrun)

theorem triple_writeThrough (hd : t.resolve parent = .ok d) (content : Bytes)
    (expected : Option Tree.Status) :
    Triple (· = t) (writeThrough pk (parent ++ [tmp]) (parent ++ [n]) content expected)
      (fun _ => Wrote d tmp n t) (Wrote d tmp n t) := by
  refine Triple.bind (triple_create hd _) fun _ => ?_
  refine Triple.inspect inspects_look (fun s hs => hs.1) fun same => ?_
  refine Triple.ite (fun _ => ?_) fun _ => Triple.pure fun s hs => hs.1.1
  refine Triple.bind ((triple_replace hd).conseq (fun s hs => hs.1) (fun _ _ hs => hs) fun _ hs => hs)
    fun _ => Triple.pure fun s hs => hs

/-- A write changes entries of the directory that its path leads to, and no others. -/
theorem wrote_atomicWrite (hd : t.resolve parent = .ok d) (content : Bytes)
    (expected : Option Tree.Status) :
    Wrote d (temporaryName n (pk.token t)) n t
      (finalState (atomicWrite pk (parent ++ [n]) content expected t)) := by
  have h : Triple (· = t) (atomicWrite pk (parent ++ [n]) content expected)
      (fun _ => Wrote d (temporaryName n (pk.token t)) n t) (Wrote d (temporaryName n (pk.token t)) n t) := by
    refine Triple.get_bind fun s => Triple.assume (c := s = t) (fun s' hs' => hs'.1.symm.trans hs'.2) ?_
    rintro rfl
    rw [List.dropLast_concat, List.getLastD_concat]
    refine (triple_andFinally (triple_writeThrough hd content expected) (keeps_unlinkIfFound hd)).conseq
      (fun s' hs' => hs'.1) (fun _ _ hs => hs) fun _ hs => hs
  have := h t rfl
  cases hrun : atomicWrite pk (parent ++ [n]) content expected t with
  | ok a t' => rwa [hrun] at this
  | error e t' => rwa [hrun] at this

end AtomicWrite

/-! ## The write of a content -/

/-- There is a content to write to a path: nothing is there, or something else. -/
def Writes (pk : Packages V) (limits : Limits) (t : Files) (path : List Name) (data : Bytes) : Prop :=
  statOf t path = .ok none ∨
    ∃ status old, statOf t path = .ok (some status) ∧ readBytes pk limits t path = .ok old ∧ old ≠ data

section WriteContent

variable {pk : Packages V} {limits : Limits} {reg : Registration} {t t' : Files}
  {parent d : List Name} {n : Name} {name : Key} {data : Bytes}

theorem finalState_error_of {ε σ α : Type} {m : EStateM ε σ α} {s s' : σ} {e : ε}
    (h : m s = .error e s') : finalState (m s) = s' := by
  rw [h]
  rfl

/-- What follows the directories of a path: nothing, or the write where there is something to write. -/
theorem writeContent_of_made (hrun : makedirs parent t = .ok () t') (hd : t'.resolve parent = .ok d) :
    finalState (writeContent pk limits (parent ++ [n]) name data t) = t' ∨
      Writes pk limits t' (parent ++ [n]) data ∧ Wrote d (temporaryName n (pk.token t')) n t'
        (finalState (writeContent pk limits (parent ++ [n]) name data t)) := by
  have hcall : call (makedirs (parent ++ [n]).dropLast) t = .ok () t' := by
    rw [List.dropLast_concat]
    exact call_ok hrun
  unfold writeContent
  rw [bind_ok hcall]
  cases hstat : statOf t' (parent ++ [n]) with
  | error e => exact Or.inl (finalState_error_of (bind_error (look_error hstat)))
  | ok expected =>
    have hlook : look (fun t => statOf t (parent ++ [n])) t' = .ok expected t' := look_ok hstat
    rw [bind_ok hlook]
    cases hholds : holds pk limits (parent ++ [n]) data expected t' with
    | error e => exact Or.inl (finalState_error_of (bind_error (look_error hholds)))
    | ok same =>
      rw [bind_ok (look_ok hholds)]
      cases same with
      | true => exact Or.inl rfl
      | false =>
        refine Or.inr ⟨?_, ?_⟩
        · cases expected with
          | none => exact Or.inl hstat
          | some status =>
            unfold holds at hholds
            dsimp only at hholds
            split at hholds
            · cases hholds
            · rename_i old hread
              exact Or.inr ⟨status, old, hstat, hread, of_decide_eq_false (Except.ok.inj hholds)⟩
        · rw [if_neg Bool.false_ne_true]
          have hwrote := @wrote_atomicWrite V pk t' parent d n hd data expected
          cases hwrite : atomicWrite pk (parent ++ [n]) data expected t' with
          | error e t'' =>
            rw [hwrite] at hwrote
            rw [bind_error hwrite]
            exact hwrote
          | ok written t'' =>
            rw [hwrite] at hwrote
            rw [bind_ok hwrite]
            cases written <;> exact hwrote

/-- The write of a content leaves the tree, or makes the directories of the path and then writes, or
not. -/
theorem writeContent_cases (pk : Packages V) (limits : Limits) (name : Key) (data : Bytes)
    (parent : List Name) (n : Name) (t : Files) :
    finalState (writeContent pk limits (parent ++ [n]) name data t) = t ∨
      ∃ t' d, (t' = t ∨ ∃ first m last d', parent = first ++ m :: last ∧ d = d' ++ m :: last ∧
          Tree.MadeAt t t' first m last d') ∧ t'.resolve parent = .ok d ∧ t'.isDir d = true ∧
        (finalState (writeContent pk limits (parent ++ [n]) name data t) = t' ∨
          Writes pk limits t' (parent ++ [n]) data ∧ Wrote d (temporaryName n (pk.token t')) n t'
            (finalState (writeContent pk limits (parent ++ [n]) name data t))) := by
  rcases makedirs_cases parent t with ⟨errno, h⟩ | ⟨r, h, hr, hrdir⟩ | ⟨t', first, m, last, d', h, rfl, hmade⟩
  · left
    unfold writeContent
    rw [List.dropLast_concat]
    exact finalState_error_of (bind_error (call_error h))
  · exact Or.inr ⟨t, r, Or.inl rfl, hr, hrdir, writeContent_of_made h hr⟩
  · exact Or.inr ⟨t', d' ++ m :: last, Or.inr ⟨first, m, last, d', rfl, rfl, hmade⟩, hmade.made, hmade.isDir,
      writeContent_of_made h hmade.made⟩

end WriteContent

/-- The directories stay, and no link is new. -/
structure Stays (t t' : Files) : Prop where
  dirs : ∀ p, t.isDir p = true → t'.isDir p = true
  links : ∀ p target, t'.entry p = some (.link target) → t.entry p = some (.link target)

theorem Stays.refl {t : Files} : Stays t t := ⟨fun _ h => h, fun _ _ h => h⟩

theorem Stays.trans {t t' t'' : Files} (h : Stays t t') (h' : Stays t' t'') : Stays t t'' :=
  ⟨fun p hp => h'.dirs p (h.dirs p hp), fun p target hp => h.links p target (h'.links p target hp)⟩

theorem Wrote.stays {d : List Name} {tmp n : Name} {t t' : Files} (h : Wrote d tmp n t t') : Stays t t' :=
  ⟨h.dirs, fun p _ hp => h.ways p _ hp rfl⟩

theorem stays_of_made {t t' : Files} {first last d : List Name} {m : Name}
    (h : Tree.MadeAt t t' first m last d) : Stays t t' := by
  refine ⟨fun p hp => ?_, fun p target hp => ?_⟩
  · rw [Tree.isDir_eq, h.outside p]
    · exact hp
    · rintro ⟨below, rfl⟩
      obtain ⟨stamp, hdir⟩ := Tree.isDir_iff.mp hp
      rw [Tree.entry_below_none h.free] at hdir
      cases hdir
  · by_cases hbelow : d ++ [m] <+: p
    · have := (h.inside p (.link target) hbelow hp).2
      cases this
    · rwa [h.outside p hbelow] at hp

section WriteContent

variable {pk : Packages V} {limits : Limits} {reg : Registration} {t t' : Files}
  {parent d : List Name} {n : Name} {name : Key} {data : Bytes}

theorem stays_writeContent : Stays t (finalState (writeContent pk limits (parent ++ [n]) name data t)) := by
  rcases writeContent_cases pk limits name data parent n t with
    h | ⟨t', d, hmade, -, -, h⟩
  · rw [h]
    exact Stays.refl
  · have hstays : Stays t t' := by
      rcases hmade with rfl | ⟨first, m, last, d', -, -, hmade⟩
      · exact Stays.refl
      · exact stays_of_made hmade
    rcases h with h | ⟨-, h⟩
    · rwa [h]
    · exact hstays.trans h.stays

/-- Where a path leads into the mount, the directories that are made for it are inside. -/
theorem prefix_of_made {first last : List Name} {m : Name} (hmount : t.isDir reg.path = true)
    (hin : reg.path <+: t.realpath (first ++ m :: last ++ [n])) (hmade : Tree.MadeAt t t' first m last d) :
    reg.path <+: d := by
  have hreal := @Tree.realpath_append _ _ _ _ _ _ (m :: (last ++ [n])) hmade.start
  rw [Tree.real_of_none hmade.free] at hreal
  rw [List.append_assoc, List.cons_append, hreal] at hin
  rcases Nat.le_total reg.path.length d.length with hle | hle
  · exact List.prefix_of_prefix_length_le hin (List.prefix_append _ _) hle
  · rcases Nat.eq_or_lt_of_le hle with heq | hlt
    · exact List.prefix_of_prefix_length_le hin (List.prefix_append _ _) heq.ge
    · have hplace : d ++ [m] <+: d ++ m :: (last ++ [n]) := by simp
      have hlength : (d ++ [m]).length ≤ reg.path.length := by
        rw [List.length_append]
        exact hlt
      obtain ⟨below, hbelow⟩ := List.prefix_of_prefix_length_le hplace hin hlength
      rw [← hbelow] at hmount
      obtain ⟨stamp, hdir⟩ := Tree.isDir_iff.mp (Tree.isDir_of_append hmount)
      rw [hmade.free] at hdir
      cases hdir

/-- There is nothing to write where a path leads to a directory. -/
theorem not_writes_of_isDir {path r : List Name} (hr : t.resolve path = .ok r) (hdir : t.isDir r = true) :
    ¬ Writes pk limits t path data := by
  obtain ⟨stamp, he⟩ := Tree.isDir_iff.mp hdir
  have hstat : statOf t path = .ok (some ⟨true, stamp⟩) := by
    unfold statOf Tree.stat
    rw [hr]
    dsimp only
    rw [he]
  have hread : readBytes pk limits t path = .error (.os .isDirectory) := by
    unfold readBytes Tree.read
    rw [hr]
    dsimp only
    rw [he]
  rintro (hnone | ⟨status, old, -, hold, -⟩)
  · rw [hstat] at hnone
    cases hnone
  · rw [hread] at hold
    cases hold

/-- A path whose last name is no link leads into the mount only when its directory lies there, or when it
names the mount itself, where there is nothing to write. -/
theorem prefix_of_leads (hmount : t.isDir reg.path = true)
    (hin : reg.path <+: t.realpath (parent ++ [n])) (hd : t.resolve parent = .ok d)
    (hdir : t.isDir d = true) (hlink : ¬ ∃ target, t.entry (d ++ [n]) = some (.link target))
    (hwrites : Writes pk limits t (parent ++ [n]) data) : reg.path <+: d := by
  have hreal : t.realpath (parent ++ [n]) = d ++ [n] := by
    rw [Tree.realpath_append hd, List.map_singleton, Tree.real_name (Tree.isLink_eq_false hlink),
      Tree.real_nil]
  rw [hreal] at hin
  rcases List.prefix_concat_iff.mp hin with hmounted | hinside
  · rw [hmounted] at hmount
    obtain ⟨stamp, he⟩ := Tree.isDir_iff.mp hmount
    exact absurd hwrites (not_writes_of_isDir (Tree.resolve_snoc hd hdir he) hmount)
  · exact hinside

/-- A content that is written at a place inside leaves everything outside, also where the place is a
link when that lies inside. -/
theorem sameOutside_writeContent (hmount : t.isDir reg.path = true)
    (hin : reg.path <+: t.realpath (parent ++ [n]))
    (hlinks : ∀ d target, t.resolve parent = .ok d → t.entry (d ++ [n]) = some (.link target) →
      Writes pk limits t (parent ++ [n]) data → reg.path <+: d) :
    Tree.SameOutside reg.path t (finalState (writeContent pk limits (parent ++ [n]) name data t)) := by
  have hwrote : ∀ {d : List Name} {tmp : Name} {t' t'' : Files}, reg.path <+: d → Wrote d tmp n t' t'' →
      Tree.SameOutside reg.path t' t'' := by
    intro d tmp t' t'' hd h p hp
    refine h.same p ?_ ?_
    · rintro rfl
      exact hp (hd.trans (List.prefix_append _ _))
    · rintro rfl
      exact hp (hd.trans (List.prefix_append _ _))
  rcases writeContent_cases pk limits name data parent n t with
    h | ⟨t', d, rfl | ⟨first, m, last, d', rfl, rfl, hmade⟩, hd, hdir, h⟩
  · rw [h]
    exact Tree.SameOutside.refl
  · rcases h with h | ⟨hwrites, h⟩
    · rw [h]
      exact Tree.SameOutside.refl
    · refine hwrote ?_ h
      by_cases hlink : ∃ target, t'.entry (d ++ [n]) = some (.link target)
      · obtain ⟨target, he⟩ := hlink
        exact hlinks d target hd he hwrites
      · exact prefix_of_leads hmount hin hd hdir hlink hwrites
  · have hinside := prefix_of_made hmount hin hmade
    have hsame : Tree.SameOutside reg.path t t' := by
      intro p hp
      refine hmade.outside p fun hbelow => hp ?_
      exact hinside.trans ((List.prefix_append _ _).trans hbelow)
    rcases h with h | ⟨-, h⟩
    · rwa [h]
    · exact hsame.trans (hwrote (hinside.trans (List.prefix_append _ _)) h)

end WriteContent

/-! ## The loop over the leaves -/

/-- A leaf of the index that is written and is a link itself is a link in the mount. The check of a leaf
follows such a link, the write replaces it. -/
def LinkInside (pk : Packages V) (limits : Limits) (reg : Registration) (names : List (Key × Key))
    (t : Files) (total : Nat) (item : Key × V) : Prop :=
  ∀ data parent n d target, pk.resolve item.2 = some data → total + data.length ≤ limits.maxTreeSize →
    leafPath reg names item.1 = parent ++ [n] → t.resolve parent = .ok d →
    t.entry (d ++ [n]) = some (.link target) → leadsInside reg t (parent ++ [n]) = true →
    Writes pk limits t (parent ++ [n]) data → reg.path <+: d

/-- The loop comes to an item, in a state and with a total size. -/
inductive ComesTo (pk : Packages V) (limits : Limits) (reg : Registration) (names : List (Key × Key)) :
    Files → Nat → List (Key × V) → Files → Nat → Key × V → Prop
  | here {t : Files} {total : Nat} {item : Key × V} {items : List (Key × V)} :
      ComesTo pk limits reg names t total (item :: items) t total item
  | next {t t' t'' : Files} {total total' total'' : Nat} {item item' : Key × V} {items : List (Key × V)}
      (hrun : writeLeaf pk limits reg names total item t = .ok total' t')
      (h : ComesTo pk limits reg names t' total' items t'' total'' item') :
      ComesTo pk limits reg names t total (item :: items) t'' total'' item'

section Loop

variable {pk : Packages V} {limits : Limits} {reg : Registration} {names : List (Key × Key)}

/-- A round writes the content of its leaf, or does nothing. -/
theorem writeLeaf_cases (pk : Packages V) (limits : Limits) (reg : Registration)
    (names : List (Key × Key)) (total : Nat) (item : Key × V) (t : Files) :
    (∃ e, writeLeaf pk limits reg names total item t = .error e t) ∨
      ∃ data, pk.resolve item.2 = some data ∧ total + data.length ≤ limits.maxTreeSize ∧
        leadsInside reg t (leafPath reg names item.1) = true ∧
        writeLeaf pk limits reg names total item t =
          (do writeContent pk limits (leafPath reg names item.1) item.1 data
              pure (total + data.length)) t := by
  unfold writeLeaf
  rw [bind_ok (show (get : M Files) t = .ok t t from rfl)]
  split
  · exact Or.inl ⟨_, rfl⟩
  · split
    · exact Or.inl ⟨_, rfl⟩
    · rename_i hin
      cases hdata : pk.resolve item.2 with
      | none => exact Or.inl ⟨_, rfl⟩
      | some data =>
        dsimp only
        split
        · exact Or.inl ⟨_, rfl⟩
        · rename_i hlimit
          exact Or.inr ⟨data, rfl, Nat.le_of_not_lt hlimit, Bool.eq_true_of_not_eq_false hin, rfl⟩

theorem finalState_bind_pure {ε σ α β : Type} (m : EStateM ε σ α) (b : β) (s : σ) :
    finalState ((m >>= fun _ => pure b) s) = finalState (m s) := by
  cases h : m s with
  | ok a s' => rw [bind_ok h]; rfl
  | error e s' => rw [bind_error h]; rfl

/-- The rounds of the loop. -/
theorem writeLeaves_cons (pk : Packages V) (limits : Limits) (reg : Registration)
    (names : List (Key × Key)) (total : Nat) (item : Key × V) (items : List (Key × V)) (t : Files) :
    writeLeaves pk limits reg names total (item :: items) t =
      (writeLeaf pk limits reg names total item >>= fun total =>
        writeLeaves pk limits reg names total items) t := rfl

theorem exists_concat {p : List Name} (h : p ≠ []) : ∃ parent n, p = parent ++ [n] :=
  ⟨p.dropLast, p.getLast h, (List.dropLast_append_getLast h).symm⟩

theorem stays_writeLeaf (total : Nat) {item : Key × V} (t : Files)
    (hpath : leafPath reg names item.1 ≠ []) :
    Stays t (finalState (writeLeaf pk limits reg names total item t)) := by
  rcases writeLeaf_cases pk limits reg names total item t with ⟨e, h⟩ | ⟨data, -, -, -, h⟩
  · rw [h]
    exact Stays.refl
  · obtain ⟨parent, n, hparent⟩ := exists_concat hpath
    rw [h, finalState_bind_pure, hparent]
    exact stays_writeContent

theorem sameOutside_writeLeaf {total : Nat} {item : Key × V} {t : Files}
    (hpath : leafPath reg names item.1 ≠ []) (hmount : t.isDir reg.path = true)
    (hlink : LinkInside pk limits reg names t total item) :
    Tree.SameOutside reg.path t (finalState (writeLeaf pk limits reg names total item t)) := by
  rcases writeLeaf_cases pk limits reg names total item t with ⟨e, h⟩ | ⟨data, hdata, hlimit, hin, h⟩
  · rw [h]
    exact Tree.SameOutside.refl
  · rw [h, finalState_bind_pure]
    obtain ⟨parent, n, hparent⟩ := exists_concat hpath
    rw [hparent] at hin ⊢
    refine sameOutside_writeContent hmount (List.isPrefixOf_iff_prefix.mp hin) ?_
    exact fun d target hd he => hlink data parent n d target hdata hlimit hparent hd he hin

theorem stays_writeLeaves : ∀ (items : List (Key × V)) (total : Nat) (t : Files),
    (∀ item ∈ items, leafPath reg names item.1 ≠ []) →
      Stays t (finalState (writeLeaves pk limits reg names total items t)) := by
  intro items
  induction items with
  | nil => exact fun _ _ _ => Stays.refl
  | cons item items ih =>
    intro total t hpaths
    have hstays : Stays t (finalState (writeLeaf pk limits reg names total item t)) :=
      stays_writeLeaf total t (hpaths item (List.mem_cons_self ..))
    rw [writeLeaves_cons]
    cases hrun : writeLeaf pk limits reg names total item t with
    | error e t' =>
      rw [hrun] at hstays
      rw [bind_error hrun]
      exact hstays
    | ok total' t' =>
      rw [hrun] at hstays
      rw [bind_ok hrun]
      exact hstays.trans (ih total' t' fun item hitem => hpaths item (List.mem_cons_of_mem _ hitem))

/-- When every leaf that the loop comes to and that is a link is one in the mount, everything outside
stays. -/
theorem sameOutside_writeLeaves : ∀ (items : List (Key × V)) (total : Nat) (t : Files),
    (∀ item ∈ items, leafPath reg names item.1 ≠ []) → t.isDir reg.path = true →
      (∀ t' total' item, ComesTo pk limits reg names t total items t' total' item →
        LinkInside pk limits reg names t' total' item) →
      Tree.SameOutside reg.path t (finalState (writeLeaves pk limits reg names total items t)) := by
  intro items
  induction items with
  | nil => exact fun _ _ _ _ _ => Tree.SameOutside.refl
  | cons item items ih =>
    intro total t hpaths hmount hlinks
    have hpath := hpaths item (List.mem_cons_self ..)
    have hstays : Stays t (finalState (writeLeaf pk limits reg names total item t)) :=
      stays_writeLeaf total t hpath
    have hsame := sameOutside_writeLeaf hpath hmount (hlinks t total item .here)
    rw [writeLeaves_cons]
    cases hrun : writeLeaf pk limits reg names total item t with
    | error e t' =>
      rw [hrun] at hsame
      rw [bind_error hrun]
      exact hsame
    | ok total' t' =>
      rw [hrun] at hstays hsame
      rw [bind_ok hrun]
      exact hsame.trans (ih total' t' (fun item hitem => hpaths item (List.mem_cons_of_mem _ hitem))
        (hstays.dirs _ hmount) fun t'' total'' item' h => hlinks t'' total'' item' (.next hrun h))

/-- Where the mount path leads elsewhere, the first leaf is refused. -/
theorem writeLeaf_refused {t : Files} {r : List Name} (hr : t.resolve reg.path = .ok r)
    (hne : r ≠ reg.path) (total : Nat) (item : Key × V) :
    ∃ e, writeLeaf pk limits reg names total item t = .error e t := by
  rcases writeLeaf_cases pk limits reg names total item t with h | ⟨data, -, -, hin, -⟩
  · exact h
  · exact absurd (List.isPrefixOf_iff_prefix.mp hin) (Tree.not_prefix_realpath hr hne _)

end Loop

/-! ## The cleanup -/

section CleanUp

variable {reg : Registration} {index : List (Key × V)} {t : Files} {r : List Name}

/-- Whatever holds under removals is kept by the cleanup of a file. -/
theorem keeps_unlinkStale {P : Files → Prop} (hP : ∀ s s', Tree.Removes r s s' → P s → P s')
    (hr : t.resolve reg.path = .ok r) {relative : Key} (hrel : relative ∈ t.walkFiles reg.path) :
    Keeps (fun s => Tree.Removes r t s ∧ P s) (unlinkStale reg index relative) := by
  refine Keeps.ite Keeps.pure (keeps_call fun s hs => ?_)
  obtain ⟨hne, e, he, -⟩ := Tree.mem_walkFiles hr hrel
  obtain ⟨q, n, rfl⟩ := exists_concat hne
  rw [← List.append_assoc] at he
  rcases unlink_cases (reg.path ++ (q ++ [n])) s with ⟨errno, h⟩ | ⟨d, n', s', hplace, hrun, h⟩
  · rwa [h]
  · rw [h]
    obtain ⟨rfl, rfl⟩ := Tree.locate_below hr hs.1 (Tree.isDir_parent he) hplace
    obtain ⟨-, hgone, hsame⟩ := Tree.removeAt_ok hrun
    rw [List.append_assoc] at hgone hsame
    have hremoved := Tree.removes_of_gone hne hgone hsame
    exact ⟨hs.1.trans hremoved, hP s s' hremoved hs.2⟩

theorem keeps_rmdirIfEmpty {P : Files → Prop} (hP : ∀ s s', Tree.Removes r s s' → P s → P s')
    (hr : t.resolve reg.path = .ok r) {relative : Key} (hrel : relative ∈ t.walkDirs reg.path) :
    Keeps (fun s => Tree.Removes r t s ∧ P s) (rmdirIfEmpty reg relative) := by
  refine Keeps.tryCatch (keeps_call fun s hs => ?_) fun _ => Keeps.pure
  obtain ⟨hne, hdir⟩ := Tree.mem_walkDirs hr hrel
  obtain ⟨q, n, rfl⟩ := exists_concat hne
  rw [← List.append_assoc] at hdir
  rcases rmdir_cases (reg.path ++ (q ++ [n])) s with ⟨errno, h⟩ | ⟨d, n', s', hplace, hrun, h⟩
  · rwa [h]
  · rw [h]
    obtain ⟨rfl, rfl⟩ := Tree.locate_below hr hs.1 (Tree.isDir_of_append hdir) hplace
    obtain ⟨-, -, hgone, hsame⟩ := Tree.removeDirAt_ok hrun
    rw [List.append_assoc] at hgone hsame
    have hremoved := Tree.removes_of_gone hne hgone hsame
    exact ⟨hs.1.trans hremoved, hP s s' hremoved hs.2⟩

theorem mem_bottomUp {dirs : List Key} {relative : Key} : relative ∈ bottomUp dirs ↔ relative ∈ dirs :=
  List.mem_insertionSort _

theorem cleanUp_eq (reg : Registration) (index : List (Key × V)) (t : Files) :
    cleanUp reg index t = (do
      (t.walkFiles reg.path).forM (unlinkStale reg index)
      (bottomUp (t.walkDirs reg.path)).forM (rmdirIfEmpty reg)) t := rfl

/-- The cleanup removes entries below the directory that the mount path leads to. -/
theorem removes_cleanUp (hr : t.resolve reg.path = .ok r) :
    Tree.Removes r t (finalState (cleanUp reg index t)) := by
  have hkeeps : Keeps (fun s => Tree.Removes r t s ∧ True) (do
      (t.walkFiles reg.path).forM (unlinkStale reg index)
      (bottomUp (t.walkDirs reg.path)).forM (rmdirIfEmpty reg)) :=
    Keeps.bind (Keeps.forM fun relative hrel => keeps_unlinkStale (fun _ _ _ h => h) hr hrel) fun _ =>
      Keeps.forM fun relative hrel => keeps_rmdirIfEmpty (fun _ _ _ h => h) hr (mem_bottomUp.mp hrel)
  rw [cleanUp_eq]
  exact (hkeeps.final ⟨Tree.Removes.refl, trivial⟩).1

/-- There is nothing below a directory that a cleanup for an empty index would remove: no files but
temporary ones, and no directory without something in it that stays. -/
def NothingToRemove (reg : Registration) (t : Files) (r : List Name) : Prop :=
  mountedFiles reg t = [] ∧ ∀ relative ∈ t.walkDirs reg.path, ∃ q e,
    t.entry (r ++ relative ++ q) = some e ∧ e.isDir = false

theorem unlinkStale_temporary {relative : Key} (h : temporary (relative.getLastD []) = true) :
    unlinkStale reg index relative = pure () := by
  unfold unlinkStale
  rw [if_pos (Or.inl h)]

theorem temporary_of_mounted (h : mountedFiles reg t = []) {relative : Key}
    (hrel : relative ∈ t.walkFiles reg.path) : temporary (relative.getLastD []) = true := by
  have := List.filter_eq_nil_iff.mp h relative hrel
  rwa [Bool.not_eq_true, Bool.not_eq_false'] at this

theorem cleanUp_nothing (hr : t.resolve reg.path = .ok r) (hnothing : NothingToRemove reg t r) :
    finalState (cleanUp reg index t) = t := by
  have hkeeps : Keeps (· = t) (do
      (t.walkFiles reg.path).forM (unlinkStale reg index)
      (bottomUp (t.walkDirs reg.path)).forM (rmdirIfEmpty reg)) := by
    refine Keeps.bind (Keeps.forM fun relative hrel => ?_) fun _ => Keeps.forM fun relative hrel => ?_
    · rw [unlinkStale_temporary (temporary_of_mounted hnothing.1 hrel)]
      exact Keeps.pure
    · refine Keeps.tryCatch (keeps_call ?_) fun _ => Keeps.pure
      rintro s rfl
      have hrel := mem_bottomUp.mp hrel
      obtain ⟨hne, hdir⟩ := Tree.mem_walkDirs hr hrel
      obtain ⟨q, e, he, hfile⟩ := hnothing.2 relative hrel
      obtain ⟨p, n, rfl⟩ := exists_concat hne
      rw [← List.append_assoc] at hdir he
      rcases rmdir_cases (reg.path ++ (p ++ [n])) s with ⟨errno, h⟩ | ⟨d, n', s', hplace, hrun, h⟩
      · rw [h]
        rfl
      · obtain ⟨rfl, rfl⟩ := Tree.locate_below hr Tree.Removes.refl (Tree.isDir_of_append hdir) hplace
        obtain ⟨-, hempty, -⟩ := Tree.removeDirAt_ok hrun
        cases q with
        | nil =>
          rw [List.append_nil] at he
          rw [Tree.isDir_eq, he, Option.any_some, hfile] at hdir
          cases hdir
        | cons m q =>
          rw [List.append_cons, Tree.entry_below_none (hempty m)] at he
          cases he
  rw [cleanUp_eq]
  exact hkeeps.final rfl

end CleanUp

/-! ## A whole delivery -/

/-- A delivery comes to change the directory: it has passed the checks. -/
structure Accepted (limits : Limits) (reg : Registration) (expected : Option Fingerprint)
    (index : List (Key × V)) (names : List (Key × Key)) (t : Files) : Prop where
  opened : reg.closed = false
  count : index.length ≤ limits.maxFiles
  safe : ∀ item ∈ index, isUnsafe item.1 = false
  seen : fingerprint limits reg t = .ok expected
  names : physicalNames (seenFiles expected) [] = .ok names

section Deliver

variable {pk : Packages V} {limits : Limits} {reg : Registration} {expected : Option Fingerprint}
  {index : List (Key × V)} {names : List (Key × Key)} {t : Files}

theorem snd_deliver (hopened : reg.closed = false) (value : IndexValue V) :
    (deliver pk limits reg expected value t).2 =
      finalState (writeDirectory pk limits reg expected value t) := by
  unfold deliver
  rw [hopened, if_neg Bool.false_ne_true]
  cases hrun : writeDirectory pk limits reg expected value t with
  | error e t' => rfl
  | ok written t' =>
    cases written with
    | false => rfl
    | true =>
      dsimp only
      cases fingerprint limits reg t' <;> rfl

theorem writeDirectory_accepted (h : Accepted limits reg expected index names t) :
    finalState (writeDirectory pk limits reg expected (.mapping index) t) =
      finalState (writeIndex pk limits reg names index t) := by
  have hsafe : (index.find? fun item => isUnsafe item.1) = none :=
    List.find?_eq_none.mpr fun item hitem => by simp [h.safe item hitem]
  have hnames : look (fun _ => physicalNames (seenFiles expected) []) t = .ok names t := look_ok h.names
  unfold writeDirectory
  dsimp only
  rw [if_neg (Nat.not_lt.mpr h.count), hsafe]
  dsimp only
  rw [bind_ok (look_ok h.seen), if_neg (not_not.mpr rfl), bind_ok hnames, finalState_bind_pure]

theorem writeDirectory_cases (pk : Packages V) (limits : Limits) (reg : Registration)
    (expected : Option Fingerprint) (value : IndexValue V) (t : Files) (hopened : reg.closed = false) :
    finalState (writeDirectory pk limits reg expected value t) = t ∨
      ∃ index names, value = .mapping index ∧ Accepted limits reg expected index names t := by
  cases value with
  | null =>
    left
    unfold writeDirectory
    dsimp only
    cases hseen : fingerprint limits reg t with
    | error e => exact finalState_error_of (bind_error (look_error hseen))
    | ok found =>
      rw [bind_ok (look_ok hseen)]
      rfl
  | other => exact Or.inl rfl
  | mapping index =>
    unfold writeDirectory
    dsimp only
    split
    · exact Or.inl rfl
    · rename_i hcount
      cases hsafe : index.find? fun item => isUnsafe item.1 with
      | some item => exact Or.inl rfl
      | none =>
        dsimp only
        cases hseen : fingerprint limits reg t with
        | error e => exact Or.inl (finalState_error_of (bind_error (look_error hseen)))
        | ok found =>
          rw [bind_ok (look_ok hseen)]
          by_cases hfound : found = expected
          · subst hfound
            rw [if_neg (not_not.mpr rfl)]
            cases hnames : physicalNames (seenFiles found) [] with
            | error e => exact Or.inl (finalState_error_of (bind_error (look_error rfl)))
            | ok names =>
              refine Or.inr ⟨index, names, rfl, hopened, Nat.le_of_not_lt hcount, fun item hitem => ?_,
                hseen, hnames⟩
              have := List.find?_eq_none.mp hsafe item hitem
              exact Bool.eq_false_of_not_eq_true this
          · rw [if_pos hfound]
            exact Or.inl rfl

theorem mem_of_physicalNames : ∀ {files : List Key} {found : List (Key × Key)},
    physicalNames files found = .ok names → ∀ entry ∈ names, entry ∈ found ∨ entry.2 ∈ files := by
  intro files
  induction files with
  | nil =>
    intro found h entry hentry
    obtain rfl := Except.ok.inj h
    exact Or.inl hentry
  | cons relative files ih =>
    intro found h entry hentry
    unfold physicalNames at h
    dsimp only at h
    split at h
    · cases h
    · rcases ih h entry hentry with hfound | hfile
      · rcases List.mem_append.mp hfound with hfound | hnew
        · exact Or.inl hfound
        · rw [List.mem_singleton.mp hnew]
          exact Or.inr (List.mem_cons_self ..)
      · exact Or.inr (List.mem_cons_of_mem _ hfile)

theorem ne_nil_of_mem_seenFiles (hseen : fingerprint limits reg t = .ok expected) {relative : Key}
    (hrel : relative ∈ seenFiles expected) : relative ≠ [] := by
  have hwalk : relative ∈ t.walkFiles reg.path := by
    unfold fingerprint at hseen
    split at hseen
    · cases hseen
    · obtain rfl := Except.ok.inj hseen
      cases hrel
    · split at hseen
      · cases hseen
      · split at hseen
        · cases hseen
        · split at hseen
          · cases hseen
          · obtain rfl := Except.ok.inj hseen
            simp only [seenFiles, List.map_map, List.mem_map, Function.comp_apply] at hrel
            obtain ⟨found, hfound, rfl⟩ := hrel
            exact (List.mem_filter.mp hfound).1
  cases hr : t.resolve reg.path with
  | error e =>
    unfold Tree.walkFiles at hwalk
    rw [hr] at hwalk
    cases hwalk
  | ok r => exact (Tree.mem_walkFiles hr hwalk).1

theorem mapLast_ne_nil (f : Name → Name) (key : Key) : mapLast f key ≠ [] := by
  simp [mapLast]

theorem defaultName_ne_nil {name : Key} (h : name ≠ []) : defaultName name ≠ [] := by
  unfold defaultName
  split
  · exact mapLast_ne_nil _ _
  · split
    · exact mapLast_ne_nil _ _
    · exact h

theorem Accepted.leafPath_ne_nil (h : Accepted limits reg expected index names t) {item : Key × V}
    (hitem : item ∈ index) : leafPath reg names item.1 ≠ [] := by
  have hname : physicalName names item.1 ≠ [] := by
    unfold physicalName
    cases hlookup : names.lookup item.1 with
    | none =>
      refine defaultName_ne_nil fun hnil => ?_
      have := h.safe item hitem
      rw [hnil] at this
      cases this
    | some relative =>
      obtain ⟨first, last, hnames, -⟩ := List.lookup_eq_some_iff.mp hlookup
      have hmem : (item.1, relative) ∈ names := hnames ▸ List.mem_append_cons_self
      rcases mem_of_physicalNames h.names _ hmem with hnil | hfile
      · cases hnil
      · exact ne_nil_of_mem_seenFiles h.seen hfile
  unfold leafPath
  exact List.append_ne_nil_of_right_ne_nil _ hname

/-- What is outside the mount is not touched by a delivery: a mount path that is not there is made in its
own directory; an index without names finds nothing to remove where the mount path leads elsewhere; and
no leaf that the loop comes to is a link into the mount from elsewhere. -/
structure Confined (pk : Packages V) (limits : Limits) (reg : Registration) (index : List (Key × V))
    (names : List (Key × Key)) (t : Files) : Prop where
  place : ∀ first n last d, reg.path = first ++ n :: last → t.resolve first = .ok d →
    t.isDir d = true → t.entry (d ++ [n]) = none → d ++ [n] = reg.path
  emptied : index = [] → cleans reg = true → ∀ r, t.resolve reg.path = .ok r → t.isDir r = true →
    r ≠ reg.path → NothingToRemove reg t r
  leaves : ∀ made, makedirs reg.path t = .ok () made → ∀ t' total item,
    ComesTo pk limits reg names made 0 (sortedItems index) t' total item →
      LinkInside pk limits reg names t' total item

theorem mem_sortedItems {item : Key × V} : item ∈ sortedItems index ↔ item ∈ index :=
  List.mem_insertionSort _

/-- What follows the directories of the mount, when these are real. -/
theorem sameOutside_writeIndex (hpaths : ∀ item ∈ index, leafPath reg names item.1 ≠ [])
    (hmount : t.isDir reg.path = true)
    (hleaves : ∀ t' total item, ComesTo pk limits reg names t 0 (sortedItems index) t' total item →
      LinkInside pk limits reg names t' total item) :
    Tree.SameOutside reg.path t (finalState ((do
      writeLeaves pk limits reg names 0 (sortedItems index)
      if cleans reg then cleanUp reg index else pure () : M Unit) t)) := by
  have hpaths : ∀ item ∈ sortedItems index, leafPath reg names item.1 ≠ [] :=
    fun item hitem => hpaths item (mem_sortedItems.mp hitem)
  have hsame := sameOutside_writeLeaves (sortedItems index) 0 t hpaths hmount hleaves
  have hstays : Stays t (finalState (writeLeaves pk limits reg names 0 (sortedItems index) t)) :=
    stays_writeLeaves (sortedItems index) 0 t hpaths
  cases hrun : writeLeaves pk limits reg names 0 (sortedItems index) t with
  | error e t' =>
    rw [hrun] at hsame
    rw [bind_error hrun]
    exact hsame
  | ok _ t' =>
    rw [hrun] at hsame hstays
    rw [bind_ok hrun]
    split
    · have hremoves : Tree.Removes reg.path t' (finalState (cleanUp reg index t')) :=
        removes_cleanUp (Tree.resolve_dir (hstays.dirs _ hmount))
      exact hsame.trans hremoves.sameOutside
    · exact hsame

theorem writeIndex_made {made : Files} (h : makedirs reg.path t = .ok () made) :
    writeIndex pk limits reg names index t = (do
      writeLeaves pk limits reg names 0 (sortedItems index)
      if cleans reg then cleanUp reg index else pure () : M Unit) made := by
  unfold writeIndex
  rw [bind_ok (call_ok h)]

/-- Where the mount path leads elsewhere, nothing is written. -/
theorem writeIndex_elsewhere {r : List Name} (h : makedirs reg.path t = .ok () t)
    (hr : t.resolve reg.path = .ok r) (hne : r ≠ reg.path)
    (hnothing : index = [] → cleans reg = true → NothingToRemove reg t r) :
    finalState (writeIndex pk limits reg names index t) = t := by
  rw [writeIndex_made h]
  cases hitems : sortedItems index with
  | nil =>
    have hindex : index = [] := by
      rw [List.eq_nil_iff_forall_not_mem]
      intro item hitem
      rw [← mem_sortedItems, hitems] at hitem
      cases hitem
    rw [bind_ok (show writeLeaves pk limits reg names 0 [] t = .ok () t from rfl)]
    split
    · rename_i hcleans
      exact cleanUp_nothing hr (hnothing hindex hcleans)
    · rfl
  | cons item items =>
    obtain ⟨e, he⟩ := @writeLeaf_refused V pk limits reg names t r hr hne 0 item
    have hrun : writeLeaves pk limits reg names 0 (item :: items) t = .error e t := by
      rw [writeLeaves_cons, bind_error he]
    exact finalState_error_of (bind_error hrun)

theorem sameOutside_deliver (h : Accepted limits reg expected index names t)
    (hconfined : Confined pk limits reg index names t) :
    Tree.SameOutside reg.path t (deliver pk limits reg expected (.mapping index) t).2 := by
  rw [snd_deliver h.opened, writeDirectory_accepted h]
  have hpaths : ∀ item ∈ index, leafPath reg names item.1 ≠ [] := fun item => h.leafPath_ne_nil
  rcases makedirs_cases reg.path t with
    ⟨errno, hrun⟩ | ⟨r, hrun, hr, hdir⟩ | ⟨made, first, n, last, d, hrun, hpath, hmade⟩
  · rw [finalState_error_of (show writeIndex pk limits reg names index t = .error (.os errno) t from
      bind_error (call_error hrun))]
    exact Tree.SameOutside.refl
  · by_cases hne : r = reg.path
    · subst hne
      rw [writeIndex_made hrun]
      exact sameOutside_writeIndex hpaths hdir (hconfined.leaves t hrun)
    · rw [writeIndex_elsewhere hrun hr hne fun hindex hcleans =>
        hconfined.emptied hindex hcleans r hr hdir hne]
      exact Tree.SameOutside.refl
  · have hplace := hconfined.place first n last d hpath hmade.start hmade.dir hmade.free
    have hmount : made.isDir reg.path = true := by
      have := hmade.isDir
      rw [show d ++ n :: last = d ++ [n] ++ last by simp, hplace] at this
      exact Tree.isDir_of_append this
    rw [writeIndex_made hrun]
    refine Tree.SameOutside.trans (fun p hp => hmade.outside p ?_)
      (sameOutside_writeIndex hpaths hmount (hconfined.leaves made hrun))
    rwa [hplace]

end Deliver

/-- A delivery changes nothing outside the directory that the mount path named when it was reserved,
whatever the index and the links around the mount, when the delivery of an accepted index is confined. -/
theorem deliver_sparesOutside (pk : Packages V) (limits : Limits) (reg : Registration)
    (expected : Option Fingerprint) (value : IndexValue V) (t : Files)
    (h : ∀ index names, value = .mapping index → Accepted limits reg expected index names t →
      Confined pk limits reg index names t) :
    Tree.SameOutside reg.path t (deliver pk limits reg expected value t).2 := by
  cases hopened : reg.closed with
  | true =>
    have hdeliver : deliver pk limits reg expected value t = (.error .mountUnregistered, t) := by
      unfold deliver
      rw [if_pos hopened]
    rw [hdeliver]
    exact Tree.SameOutside.refl
  | false =>
    rcases writeDirectory_cases pk limits reg expected value t hopened with
      hsame | ⟨index, names, rfl, haccepted⟩
    · rw [snd_deliver hopened, hsame]
      exact Tree.SameOutside.refl
    · exact sameOutside_deliver haccepted (h index names rfl haccepted)

/-- Content without a compression; an index maps a name to the length of its content. -/
def plainPackages : Packages Nat where
  gzip := id
  gunzip := some
  zstd := id
  unzstd := some
  resolve n := some (List.replicate n 0)
  token _ := ['0']

/-- A mounted directory with a link to a directory elsewhere in it. -/
def linkedTree : Files :=
  ((Tree.empty.put [] ['m'] (.dir 1) rfl rfl).put [] ['o'] (.dir 2) rfl rfl).put [['m']] ['l']
    (.link ⟨true, [.name ['o']]⟩) rfl rfl

/-- A name in the mount, and one that leads out of it. -/
def leadingOut : List (Key × Nat) := [([['a']], 1), ([['l'], ['x']], 1)]

def linkedMount : Registration := { path := [['m']] }

theorem confined_linkedMount (names : List (Key × Key))
    (h : Accepted {} linkedMount (some ⟨⟨true, 1⟩, []⟩) leadingOut names linkedTree) :
    Confined plainPackages {} linkedMount leadingOut names linkedTree := by
  obtain rfl : names = [] := (Except.ok.inj h.names).symm
  refine ⟨fun first n last d hpath hfirst _ hnone => ?_, fun hindex => (List.cons_ne_nil _ _ hindex).elim,
    fun made hmade t' total item hcomes => ?_⟩
  · obtain ⟨rfl, rfl, rfl⟩ : first = [] ∧ n = ['m'] ∧ last = [] := by
      cases first with
      | nil => exact ⟨rfl, (List.cons.inj hpath).1.symm, (List.cons.inj hpath).2.symm⟩
      | cons m first => simp [linkedMount] at hpath
    obtain rfl : d = [] := (Except.ok.inj hfirst).symm
    cases hnone
  · obtain rfl : made = linkedTree := by
      have hrun : makedirs linkedMount.path linkedTree = .ok () linkedTree :=
        makedirs_of_isDir (Tree.resolve_dir (by decide)) (by decide)
      rw [hrun] at hmade
      exact (EStateM.Result.ok.inj hmade).2.symm
    intro data parent n d target _ _ hpath hd he hin _
    have hitems : sortedItems leadingOut = leadingOut := by decide
    rw [hitems] at hcomes
    cases hcomes with
    | here =>
      obtain ⟨rfl, rfl⟩ : [['m']] = parent ∧ ['a'] = n := List.append_singleton_inj.mp hpath
      obtain rfl : [['m']] = d := Except.ok.inj hd
      exact List.prefix_refl _
    | next hrun hcomes =>
      cases hcomes with
      | here =>
        obtain rfl : t' = finalState (writeLeaf plainPackages {} linkedMount [] 0 ([['a']], 1) linkedTree) := by
          rw [hrun]
          rfl
        rw [← hpath] at hin
        exact absurd hin (by decide +kernel)
      | next _ hcomes => cases hcomes

/-- The name in the mount is written, and the directory elsewhere stays empty. -/
theorem deliver_sparesOutside_linkedMount : Tree.SameOutside [['m']] linkedTree
    (deliver plainPackages {} linkedMount (some ⟨⟨true, 1⟩, []⟩) (.mapping leadingOut) linkedTree).2 :=
  deliver_sparesOutside plainPackages {} linkedMount _ _ linkedTree fun _ names hvalue haccepted =>
    IndexValue.mapping.inj hvalue ▸ confined_linkedMount names (IndexValue.mapping.inj hvalue ▸ haccepted)

end DirectoryMount

end SeamlessWorkflow
