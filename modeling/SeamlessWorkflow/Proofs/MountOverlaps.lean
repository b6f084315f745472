import SeamlessWorkflow.Attachments.Reservations

/-!
# Mounts do not overlap

The test on the texts of two paths is right but for the root of the file system, whose text ends in a
separator. Of two registrations that contend for a path one replaces the other, and so one of them is
not live.
-/

namespace SeamlessWorkflow

namespace Mount

/-! ## The text of a path -/

/-- Names, each after a separator. -/
def namesChars (names : List String) : List Char := names.flatMap fun name => sep :: name.toList

theorem namesChars_cons (name : String) (names : List String) :
    namesChars (name :: names) = sep :: (name.toList ++ namesChars names) := by
  unfold namesChars
  rw [List.flatMap_cons, List.cons_append]

/-- Texts without a separator, each followed by nothing or by a separator, are told apart. -/
theorem eq_of_separated {a b : List Char} (ha : sep ∉ a) (hb : sep ∉ b) :
    ∀ {r s : List Char}, (∀ c ∈ r.head?, c = sep) → (∀ c ∈ s.head?, c = sep) → a ++ r <+: b ++ s →
      r ≠ [] → a = b ∧ r <+: s := by
  induction a generalizing b with
  | nil =>
    intro r s hr hs hprefix hne
    cases b with
    | nil => exact ⟨rfl, hprefix⟩
    | cons c b =>
      cases r with
      | nil => exact absurd rfl hne
      | cons d r =>
        have hd : d = sep := hr d rfl
        have hdc : d = c := (List.cons_prefix_cons.mp hprefix).1
        exact absurd (hd ▸ hdc ▸ List.mem_cons_self ..) hb
  | cons c a ih =>
    intro r s hr hs hprefix hne
    cases b with
    | nil =>
      cases s with
      | nil => exact absurd hprefix.length_le (by simp)
      | cons d s =>
        have hd : d = sep := hs d rfl
        have hcd : c = d := (List.cons_prefix_cons.mp hprefix).1
        exact absurd (hd ▸ hcd ▸ List.mem_cons_self ..) ha
    | cons d b =>
      obtain ⟨hcd, htail⟩ := List.cons_prefix_cons.mp hprefix
      have ha' : sep ∉ a := fun h => ha (List.mem_cons_of_mem _ h)
      have hb' : sep ∉ b := fun h => hb (List.mem_cons_of_mem _ h)
      obtain ⟨hab, hrest⟩ := ih ha' hb' hr hs htail hne
      exact ⟨by rw [hcd, hab], hrest⟩

theorem head_namesChars (names : List String) : ∀ c ∈ (namesChars names).head?, c = sep := by
  cases names with
  | nil => exact fun c hc => nomatch hc
  | cons name names =>
    intro c hc
    rw [namesChars_cons] at hc
    exact (Option.some.inj hc).symm

theorem namesChars_append (names names' : List String) :
    namesChars (names ++ names') = namesChars names ++ namesChars names' := List.flatMap_append

/-- The text of the names of a path, with a separator, begins that of the paths below it. -/
theorem namesChars_prefix_iff {names : List String} (h : ∀ name ∈ names, sep ∉ name.toList) :
    ∀ {names' : List String}, (∀ name ∈ names', sep ∉ name.toList) →
      (namesChars names ++ [sep] <+: namesChars names' ↔ names <+: names' ∧ names ≠ names') := by
  induction names with
  | nil =>
    intro names' h'
    cases names' with
    | nil =>
      refine ⟨fun hprefix => ?_, fun hne => absurd rfl hne.2⟩
      exact absurd hprefix.length_le (by simp [namesChars])
    | cons name names' =>
      refine ⟨fun _ => ⟨List.nil_prefix, List.cons_ne_nil name names' |>.symm⟩, fun _ => ?_⟩
      rw [namesChars_cons]
      exact ⟨_, rfl⟩
  | cons name names ih =>
    intro names' h'
    have hname : sep ∉ name.toList := h name (List.mem_cons_self ..)
    have hnames : ∀ name ∈ names, sep ∉ name.toList := fun n hn => h n (List.mem_cons_of_mem _ hn)
    cases names' with
    | nil =>
      refine ⟨fun hprefix => ?_, fun hne => ?_⟩
      · rw [namesChars_cons] at hprefix
        exact absurd hprefix.length_le (by simp [namesChars])
      · exact absurd hne.1.length_le (by simp)
    | cons name' names' =>
      have hname' : sep ∉ name'.toList := h' name' (List.mem_cons_self ..)
      have hnames' : ∀ name ∈ names', sep ∉ name.toList :=
        fun n hn => h' n (List.mem_cons_of_mem _ hn)
      have ih := ih hnames hnames'
      have hhead : ∀ c ∈ (namesChars names ++ [sep]).head?, c = sep := by
        cases names with
        | nil => exact fun c hc => (Option.some.inj hc).symm
        | cons n ns =>
          intro c hc
          rw [namesChars_cons] at hc
          exact (Option.some.inj hc).symm
      rw [namesChars_cons, namesChars_cons, List.cons_append, List.append_assoc,
        List.cons_prefix_cons, List.cons_prefix_cons]
      constructor
      · rintro ⟨-, hprefix⟩
        obtain ⟨heq, hrest⟩ := eq_of_separated hname hname' hhead (head_namesChars names') hprefix
          (List.append_ne_nil_of_right_ne_nil _ (List.cons_ne_nil _ _))
        obtain ⟨hbelow, hne⟩ := ih.mp hrest
        exact ⟨⟨String.toList_inj.mp heq, hbelow⟩, fun h => hne (List.cons.inj h).2⟩
      · rintro ⟨⟨heq, hbelow⟩, hne⟩
        refine ⟨rfl, ?_⟩
        rw [heq]
        refine (List.prefix_append_right_inj _).mpr (ih.mpr ⟨hbelow, fun h => hne ?_⟩)
        rw [heq, h]

theorem RealPath.noSep (path : RealPath) : ∀ name ∈ path.names, sep ∉ name.toList :=
  fun name hname => (path.proper name hname).2

/-- A text with a separator after it begins another text when the path contains the other one and is not
the root. -/
theorem chars_sep_prefix (path other : RealPath) : (path.chars ++ [sep]).isPrefixOf other.chars = true ↔
    path.names ≠ [] ∧ path.names <+: other.names ∧ path.names ≠ other.names := by
  rw [List.isPrefixOf_iff_prefix]
  unfold RealPath.chars
  by_cases hroot : path.names = []
  · -- no text begins with two separators
    refine ⟨fun hprefix => ?_, fun h => absurd hroot h.1⟩
    rw [if_pos hroot] at hprefix
    exfalso
    by_cases hother : other.names = []
    · rw [if_pos hother] at hprefix
      exact absurd hprefix.length_le (by simp)
    · rw [if_neg hother] at hprefix
      obtain ⟨name, names, heq⟩ := List.exists_cons_of_ne_nil hother
      have hproper := other.proper name (by rw [heq]; exact List.mem_cons_self ..)
      rw [heq, List.flatMap_cons, List.cons_append, List.cons_append,
        List.cons_prefix_cons] at hprefix
      obtain ⟨c, cs, hchars⟩ := List.exists_cons_of_ne_nil
        (fun h => hproper.1 (String.toList_inj.mp (h.trans rfl)))
      rw [hchars, List.cons_append, List.nil_append, List.cons_prefix_cons] at hprefix
      refine hproper.2 ?_
      rw [hchars, hprefix.2.1]
      exact List.mem_cons_self ..
  · rw [if_neg hroot]
    by_cases hother : other.names = []
    · refine ⟨fun hprefix => ?_, fun h => ?_⟩
      · rw [if_pos hother] at hprefix
        obtain ⟨name, names, heq⟩ := List.exists_cons_of_ne_nil hroot
        rw [heq] at hprefix
        exact absurd hprefix.length_le (by simp)
      · rw [hother] at h
        exact absurd (List.prefix_nil.mp h.2.1) hroot
    · rw [if_neg hother]
      refine (namesChars_prefix_iff path.noSep other.noSep).trans ?_
      exact ⟨fun h => ⟨hroot, h⟩, fun h => h.2⟩

theorem prefix_of_namesChars_eq {names names' : List String} (h : ∀ name ∈ names, sep ∉ name.toList)
    (h' : ∀ name ∈ names', sep ∉ name.toList) (heq : namesChars names = namesChars names') :
    names <+: names' := by
  -- a path below the second one is below the first one too
  have hbelow : ∀ name ∈ names' ++ ["x"], sep ∉ name.toList := by
    intro name hname
    rcases List.mem_append.mp hname with hold | hnew
    · exact h' name hold
    · have hsame := List.mem_singleton.mp hnew
      subst hsame
      decide
  have hprefix : namesChars names ++ [sep] <+: namesChars (names' ++ ["x"]) := by
    rw [namesChars_append, heq]
    exact (List.prefix_append_right_inj _).mpr ⟨['x'], rfl⟩
  obtain ⟨hle, hne⟩ := (namesChars_prefix_iff h hbelow).mp hprefix
  rcases List.prefix_concat_iff.mp hle with hsame | hle
  · exact absurd hsame hne
  · exact hle

/-- The text of a path that is not the root has more than a separator. -/
theorem chars_ne_sep {path : RealPath} (h : path.names ≠ []) : path.chars ≠ [sep] := by
  intro heq
  obtain ⟨name, names, hnames⟩ := List.exists_cons_of_ne_nil h
  have hproper := path.proper name (by rw [hnames]; exact List.mem_cons_self ..)
  unfold RealPath.chars at heq
  rw [if_neg h, hnames, List.flatMap_cons, List.cons_append] at heq
  have hnil := (List.append_eq_nil_iff.mp (List.cons.inj heq).2).1
  exact hproper.1 (String.toList_inj.mp hnil)

theorem chars_injective {path other : RealPath} (h : path.chars = other.chars) :
    path.names = other.names := by
  by_cases hroot : path.names = []
  · have hpath : path.chars = [sep] := if_pos hroot
    by_contra hne
    exact chars_ne_sep (fun hother => hne (hroot.trans hother.symm)) (h.symm.trans hpath)
  · have hother : other.names ≠ [] := by
      intro hnil
      have hsep : other.chars = [sep] := if_pos hnil
      exact chars_ne_sep hroot (h.trans hsep)
    unfold RealPath.chars at h
    rw [if_neg hroot, if_neg hother] at h
    have hle := prefix_of_namesChars_eq path.noSep other.noSep h
    have hge := prefix_of_namesChars_eq other.noSep path.noSep h.symm
    exact hle.eq_of_length (Nat.le_antisymm hle.length_le hge.length_le)

/-- What the test finds: the two paths are the same, or one contains the other and neither is the root
of the file system. -/
theorem overlap_iff (reg other : Registration) : reg.overlap other = true ↔
    reg.path.names = other.path.names ∨
      (reg.path.names ≠ [] ∧ other.path.names ≠ [] ∧ reg.path.Overlaps other.path) := by
  unfold Registration.overlap
  rw [Bool.or_eq_true, Bool.or_eq_true, decide_eq_true_eq, chars_sep_prefix, chars_sep_prefix]
  constructor
  · rintro ((heq | ⟨hother, hle, -⟩) | ⟨hreg, hle, -⟩)
    · exact Or.inl (chars_injective heq)
    · refine Or.inr ⟨fun hnil => ?_, hother, Or.inr hle⟩
      rw [hnil] at hle
      exact hother (List.prefix_nil.mp hle)
    · refine Or.inr ⟨hreg, fun hnil => ?_, Or.inl hle⟩
      rw [hnil] at hle
      exact hreg (List.prefix_nil.mp hle)
  · rintro (heq | ⟨hreg, hother, hoverlaps⟩)
    · refine Or.inl (Or.inl ?_)
      unfold RealPath.chars
      rw [heq]
    · by_cases heq : reg.path.names = other.path.names
      · refine Or.inl (Or.inl ?_)
        unfold RealPath.chars
        rw [heq]
      · rcases hoverlaps with hle | hle
        · exact Or.inr ⟨hreg, hle, heq⟩
        · exact Or.inl (Or.inr ⟨hother, hle, fun h => heq h.symm⟩)

/-! ## Runs -/

namespace FileSystemService

/-- A reservation at the root of the file system, or next to a registration there, meets only
registrations that it replaces, that are at the root as well, or that it does not contend with. -/
def KeepsRoot (service : FileSystemService) : Event → Prop
  | .reserve path directory mode persistent replaces =>
    ∀ other ∈ service.registrations, other.isOpen = true → other.id ∉ replaces →
      Registration.contends { id := service.next, path, directory, mode, persistent } other = true →
        (path.names = [] ↔ other.path.names = [])
  | _ => True

instance (service : FileSystemService) (event : Event) : Decidable (service.KeepsRoot event) := by
  unfold KeepsRoot
  split <;> infer_instance

/-- Of two open registrations that overlap and contend, one replaces the other. -/
structure Separated (service : FileSystemService) : Prop where
  numbered : ∀ reg ∈ service.registrations, reg.id < service.next
  apart : ∀ reg ∈ service.registrations, ∀ other ∈ service.registrations, reg.id ≠ other.id →
    reg.isOpen = true → other.isOpen = true → reg.contends other = true →
      reg.path.Overlaps other.path → reg.id ∈ other.replaces ∨ other.id ∈ reg.replaces

theorem contends_comm (reg other : Registration) : reg.contends other = other.contends reg := by
  unfold Registration.contends
  cases reg.mode.writes <;> cases other.mode.writes <;> cases reg.cleanup <;> cases other.cleanup <;> rfl

variable {service next : FileSystemService} {event : Event}

/-- Registrations that only close, or go. -/
theorem Separated.close (h : service.Separated) {registrations : List Registration} {stopping : Bool}
    (hfrom : ∀ reg ∈ registrations, ∃ old ∈ service.registrations, reg.id = old.id ∧
      reg.path = old.path ∧ reg.replaces = old.replaces ∧
      (∀ other, reg.contends other = old.contends other) ∧ (reg.isOpen = true → old.isOpen = true)) :
    Separated { service with registrations, stopping } where
  numbered reg hreg := by
    obtain ⟨old, hold, hid, -⟩ := hfrom reg hreg
    rw [hid]
    exact h.numbered old hold
  apart reg hreg other hother hne hopen hopen' hcontends hoverlaps := by
    obtain ⟨old, hold, hid, hpath, hreplaces, hsame, hwas⟩ := hfrom reg hreg
    obtain ⟨old', hold', hid', hpath', hreplaces', hsame', hwas'⟩ := hfrom other hother
    rw [hsame other, contends_comm, hsame' old, contends_comm] at hcontends
    rw [hpath, hpath'] at hoverlaps
    rw [hid, hid'] at hne ⊢
    rw [hreplaces, hreplaces']
    exact h.apart old hold old' hold' hne (hwas hopen) (hwas' hopen') hcontends hoverlaps

/-- Marking a registration. -/
theorem Separated.modify (h : service.Separated) (id : Nat) {f : Registration → Registration}
    (hf : ∀ reg, (f reg).id = reg.id ∧ (f reg).path = reg.path ∧ (f reg).replaces = reg.replaces ∧
      (∀ other, (f reg).contends other = reg.contends other) ∧
      ((f reg).isOpen = true → reg.isOpen = true)) : (service.modify id f).Separated := by
  refine h.close fun reg hreg => ?_
  obtain ⟨old, hold, rfl⟩ := List.mem_map.mp hreg
  refine ⟨old, hold, ?_⟩
  split
  · exact hf old
  · exact ⟨rfl, rfl, rfl, fun _ => rfl, fun hopen => hopen⟩

theorem Separated.reserve (h : service.Separated) {path : RealPath} {directory : Bool} {mode : Mode}
    {persistent : Bool} {replaces : List Nat} {reg : Registration}
    (hroot : service.KeepsRoot (.reserve path directory mode persistent replaces))
    (hreserve : service.reserve path directory mode persistent replaces = .ok (reg, next)) :
    next.Separated := by
  unfold FileSystemService.reserve at hreserve
  dsimp only at hreserve
  split at hreserve
  · cases hreserve
  · split at hreserve
    · cases hreserve
    · rename_i hfind
      cases hreserve
      have hnew : ∀ other ∈ service.registrations, other.isOpen = true →
          Registration.contends { id := service.next, path, directory, mode, persistent, replaces }
            other = true → path.Overlaps other.path → other.id ∈ replaces := by
        intro other hother hopen hcontends hoverlaps
        by_contra hreplaces
        have hroots : path.names = [] ↔ other.path.names = [] :=
          hroot other hother hopen hreplaces hcontends
        have hoverlap : Registration.overlap
            { id := service.next, path, directory, mode, persistent, replaces } other = true := by
          refine (overlap_iff _ _).mpr ?_
          by_cases hnil : path.names = []
          · exact Or.inl (hnil.trans (hroots.mp hnil).symm)
          · exact Or.inr ⟨hnil, fun hother => hnil (hroots.mpr hother), hoverlaps⟩
        have hnot := List.find?_eq_none.mp hfind other hother
        simp [hopen, hreplaces, hoverlap, hcontends] at hnot
      refine ⟨fun r hr => ?_, fun r hr r' hr' hne hopen hopen' hcontends hoverlaps => ?_⟩
      · rcases List.mem_append.mp hr with hold | hlast
        · exact Nat.lt_succ_of_lt (h.numbered r hold)
        · have hsame := List.mem_singleton.mp hlast
          subst hsame
          exact Nat.lt_succ_self _
      · rcases List.mem_append.mp hr with hold | hlast
        · rcases List.mem_append.mp hr' with hold' | hlast'
          · exact h.apart r hold r' hold' hne hopen hopen' hcontends hoverlaps
          · have hsame := List.mem_singleton.mp hlast'
            subst hsame
            rw [contends_comm] at hcontends
            exact Or.inl (hnew r hold hopen hcontends hoverlaps.symm)
        · have hsame := List.mem_singleton.mp hlast
          subst hsame
          rcases List.mem_append.mp hr' with hold' | hlast'
          · exact Or.inr (hnew r' hold' hopen' hcontends hoverlaps)
          · have hsame' := List.mem_singleton.mp hlast'
            exact absurd (by rw [hsame']) hne

theorem Separated.step (h : service.Separated) (hroot : service.KeepsRoot event)
    (hstep : service.step event = some next) : next.Separated := by
  cases event with
  | reserve path directory mode persistent replaces =>
    unfold FileSystemService.step at hstep
    dsimp only at hstep
    split at hstep
    · rename_i reg service' hreserve
      cases hstep
      exact h.reserve hroot hreserve
    · cases hstep
      exact h
  | unregister id =>
    cases hstep
    refine h.modify id fun reg => ⟨rfl, rfl, rfl, fun _ => rfl, fun hopen => ?_⟩
    simp [Registration.isOpen] at hopen
  | finishCleanup id =>
    unfold FileSystemService.step at hstep
    dsimp only at hstep
    split at hstep
    · cases hstep
      have hmarked : (service.modify id fun reg => { reg with closed := true }).Separated := by
        refine h.modify id fun reg => ⟨rfl, rfl, rfl, fun _ => rfl, fun hopen => ?_⟩
        simp [Registration.isOpen] at hopen
      refine hmarked.close fun reg hreg => ?_
      exact ⟨reg, (List.mem_filter.mp hreg).1, rfl, rfl, rfl, fun _ => rfl, fun hopen => hopen⟩
    · cases hstep
  | close =>
    cases hstep
    exact h.close fun reg hreg => ⟨reg, hreg, rfl, rfl, rfl, fun _ => rfl, fun hopen => hopen⟩

/-- Of two registrations that contend for overlapping paths, one is not live. -/
theorem Separated.exclusive (h : service.Separated) : service.Exclusive := by
  intro reg hreg other hother hne hcontends hoverlaps
  obtain ⟨hin, hlive⟩ := List.mem_filter.mp hreg
  obtain ⟨hin', hlive'⟩ := List.mem_filter.mp hother
  rw [Bool.and_eq_true, Bool.not_eq_true'] at hlive hlive'
  have hreplaced : ∀ {r r' : Registration}, r' ∈ service.registrations → r'.isOpen = true →
      r.id ∈ r'.replaces → service.beingReplaced r = true := by
    intro r r' hr' hopen hreplaces
    refine List.any_eq_true.mpr ⟨r', hr', ?_⟩
    rw [Bool.and_eq_true]
    exact ⟨hopen, decide_eq_true hreplaces⟩
  rcases h.apart reg hin other hin' hne hlive.1 hlive'.1 hcontends hoverlaps with hmem | hmem
  · rw [hreplaced hin' hlive'.1 hmem] at hlive
    exact Bool.noConfusion hlive.2
  · rw [hreplaced hin hlive.1 hmem] at hlive'
    exact Bool.noConfusion hlive'.2

/-- In every run in which no reservation contends across the root of the file system, no two live
registrations overlap. -/
theorem reachable_exclusive {service : FileSystemService}
    (h : Transition.Reachable step {} KeepsRoot service) : service.Exclusive := by
  have hseparated : service.Separated := by
    refine h.invariant ⟨fun _ hreg => (nomatch hreg), fun _ hreg => (nomatch hreg)⟩ ?_
    exact fun _ _ _ hs hroot hstep => Separated.step hs hroot hstep
  exact hseparated.exclusive

/-- A directory is mounted, then replaced, and another Context mounts a file next to it. -/
def remount : List Event :=
  [.reserve { names := ["data"] } true .rw false [], .reserve { names := ["data", "x"] } false .r true [0],
    .unregister 0, .reserve { names := ["data", "y"] } false .w true [], .finishCleanup 0]

theorem remount_runs : (Transition.run step remount {}).isSome = true := by decide

theorem reachable_exclusive_remount :
    ((Transition.run step remount {}).get remount_runs).Exclusive :=
  reachable_exclusive (Transition.Reachable.of_run .start (by decide) remount_runs)

/-- The root of the file system is mounted, and then a file in it. -/
def mountRoot : List Event :=
  [.reserve { names := [] } true .rw true [], .reserve { names := ["tmp", "x"] } false .w true []]

theorem mountRoot_runs : (Transition.run step mountRoot {}).isSome = true := by decide

/-- Both registrations write, and both are live. -/
theorem not_reachable_exclusive :
    ¬ ∀ service, Transition.Reachable step {} (fun _ _ => True) service → service.Exclusive := by
  intro h
  have hexclusive := h _ (Transition.Reachable.of_run .start (by decide) mountRoot_runs)
  have hnot : ¬((Transition.run step mountRoot {}).get mountRoot_runs).Exclusive := by decide
  exact hnot hexclusive

end FileSystemService

end Mount

end SeamlessWorkflow
