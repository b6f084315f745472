import SeamlessWorkflow.Context.Expressions
import SeamlessWorkflow.Proofs.RecipeCelltypes

/-!
# Fusion preserves meaning

The links of a recipe are grouped into runs by one pass that keeps an open run. What the open run
evaluates to is what its links evaluate to one by one, so closing it loses nothing.
-/

namespace SeamlessWorkflow

open CellHandle

/-! ## Celltypes of links -/

/-- A link that carries a path yields the celltype that the path projects to. -/
def WellTyped : Celltype → List Link → Prop
  | _, [] => True
  | current, link :: links =>
    (link.2 ≠ [] → link.1 = projectedCelltype current link.2) ∧ WellTyped link.1 links

theorem wellTyped_append : ∀ {current : Celltype} {links links' : List Link},
    WellTyped current links → WellTyped (linksCelltype current links) links' →
      WellTyped current (links ++ links')
  | _, [], _, _, h => h
  | current, link :: links, links', h, h' => by
    refine ⟨h.1, wellTyped_append h.2 ?_⟩
    rw [linksCelltype_cons] at h'
    exact h'

theorem pathLinks_wellTyped (current : Celltype) (path : Path) : WellTyped current (pathLinks current path) := by
  unfold pathLinks
  split
  · trivial
  · exact ⟨fun _ => rfl, trivial⟩
  · split
    · exact ⟨fun _ => rfl, fun _ => rfl, trivial⟩
    · exact ⟨fun _ => rfl, trivial⟩

theorem anonymousLinksFrom_wellTyped (localPath : Path) : ∀ (steps : List ConversionStep)
    (current : Celltype) (position : Nat),
      WellTyped current (anonymousLinksFrom localPath steps current position)
  | [], _, _ => pathLinks_wellTyped ..
  | (_, _) :: steps, _, _ =>
    wellTyped_append (pathLinks_wellTyped ..)
      ⟨fun h => absurd rfl h, anonymousLinksFrom_wellTyped localPath steps _ _⟩

/-! ## The runs cut the links -/

/-- Runs that cut the links from `start` on into consecutive pieces. A run of more than one link has
nothing deep in it. -/
def Cuts (links : List Link) : Nat → List Run → Prop
  | start, [] => start = links.length
  | start, run :: runs =>
    start ≤ run.last ∧ run.last < links.length ∧
      (start < run.last → run.inputCelltype.isDeep = false ∧
        ∀ link ∈ (links.take (run.last + 1)).drop start, link.1.isDeep = false) ∧
      Cuts links (run.last + 1) runs

theorem Cuts.le {links : List Link} : ∀ {start : Nat} {runs : List Run}, Cuts links start runs →
    ∀ run ∈ runs, start ≤ run.last
  | _, [], _, _, hrun => nomatch hrun
  | start, first :: runs, h, run, hrun => by
    rcases List.mem_cons.mp hrun with rfl | hrest
    · exact h.1
    · have hfirst := h.1
      have hlater := h.2.2.2.le run hrest
      omega

/-- The last indices of the runs increase. -/
theorem Cuts.increasing {links : List Link} : ∀ {start : Nat} {runs : List Run}, Cuts links start runs →
    (runs.map Run.last).Pairwise (· < ·)
  | _, [], _ => List.Pairwise.nil
  | _, first :: runs, h => by
    refine List.pairwise_cons.mpr ⟨fun last hlast => ?_, h.2.2.2.increasing⟩
    obtain ⟨run, hrun, rfl⟩ := List.mem_map.mp hlast
    have := h.2.2.2.le run hrun
    omega

/-- The last run ends with the last link. -/
theorem Cuts.final {links : List Link} : ∀ {start : Nat} {runs : List Run}, Cuts links start runs →
    start < links.length → (runs.getLast?).map Run.last = some (links.length - 1)
  | start, [], h, hlt => by
    have heq : start = links.length := h
    omega
  | _, first :: runs, h, _ => by
    obtain ⟨-, hlast, -, hrest⟩ := h
    cases runs with
    | nil =>
      have heq : first.last + 1 = links.length := hrest
      show some first.last = some (links.length - 1)
      congr 1
      omega
    | cons next runs =>
      have hnext : next.last < links.length := hrest.2.1
      have hle : first.last + 1 ≤ next.last := hrest.1
      rw [List.getLast?_cons_cons]
      exact hrest.final (by omega)

/-- The open run ends in the link before `index`, and nothing in it is deep. When it does not end in a
conversion it only reads. -/
structure OpenRun.Open (run : OpenRun) (current : Celltype) (index : Nat) : Prop where
  celltype : run.celltype = current
  last : run.last + 1 = index
  input : run.inputCelltype.isDeep = false
  shallow : current.isDeep = false
  reads : run.endsInConversion = false → run.path ≠ [] ∧ run.inputCelltype = run.celltype

/-- What an open run evaluates to. -/
def ExpressionClass.openValue (E : ExpressionClass) (run : OpenRun) : Checksum → Option Checksum :=
  E.apply run.path run.inputCelltype run.celltype

/-- A link after an open run: it joins the run, and the run evaluates to what the old run and the link
evaluate to. -/
def JoinsRun (preserving : Celltype → Celltype → Bool) (old run : OpenRun) (current : Celltype)
    (link : Link) : Prop :=
  ∀ E : ExpressionClass, E.Lawful preserving → ∀ checksum,
    E.openValue run checksum = (E.openValue old checksum).bind (E.apply link.2 current link.1)

section

variable {preserving : Celltype → Celltype → Bool} {celltype current : Celltype} {path : Path}
  {index : Nat} {old : OpenRun}

/-- A path joins a run that only reads. -/
theorem joins_path (h : old.Open current index) (hends : old.endsInConversion = false)
    (hpath : path ≠ []) (hcelltype : celltype = current) :
    JoinsRun preserving old { old with path := old.path ++ path, celltype, last := index } current
      (celltype, path) := by
  intro E hE checksum
  obtain ⟨hreads, hinput⟩ := h.reads hends
  unfold ExpressionClass.openValue
  dsimp only
  rw [hinput, h.celltype, hcelltype]
  exact hE.composes h.shallow hreads hpath checksum

/-- A path takes the place of a conversion that preserves the checksum. -/
theorem joins_absorbed (h : old.Open current index) (hpath : old.path = []) (hcelltype : celltype = current)
    (hpreserving : old.inputCelltype = old.celltype ∨
      preserving old.inputCelltype old.celltype = true) :
    JoinsRun preserving old ⟨⟨old.celltype, path, celltype, index⟩, false, true⟩ current
      (celltype, path) := by
  intro E hE checksum
  have hvalue : E.openValue old checksum = some checksum := by
    unfold ExpressionClass.openValue
    rw [hpath]
    rcases hpreserving with heq | hpreserving
    · rw [heq]
      exact hE.dummy old.celltype checksum
    · exact hE.preserves hpreserving checksum
  rw [hvalue]
  unfold ExpressionClass.openValue
  dsimp only
  rw [h.celltype, hcelltype]
  rfl

/-- A conversion to the celltype that the run has already changes nothing. -/
theorem joins_identity (old : OpenRun) (current : Celltype) (index : Nat) :
    JoinsRun preserving old { old with last := index } current (current, []) := by
  intro E hE checksum
  have hdummy : E.apply [] current current = some := funext fun c => hE.dummy current c
  dsimp only
  rw [hdummy, Option.bind_fun_some]
  rfl

/-- A conversion joins a run that only reads. -/
theorem joins_conversion (h : old.Open current index) (hends : old.endsInConversion = false) :
    JoinsRun preserving old { old with celltype, last := index, endsInConversion := true } current
      (celltype, []) := by
  intro E hE checksum
  obtain ⟨hreads, hinput⟩ := h.reads hends
  have hshallow : old.inputCelltype.isDeep = false := h.input
  have hconverts := hE.converts hshallow celltype hreads checksum
  unfold ExpressionClass.openValue
  dsimp only
  rw [hconverts, ← h.celltype, hinput]

/-- One step of the loop over a link that is not deep. It closes the open run, if there is one, and opens
another one with the link alone, or the link joins the open run. -/
theorem fusibleRunsFrom_cons (preserving : Celltype → Celltype → Bool)
    (hcurrent : current.isDeep = false) (hcelltype : celltype.isDeep = false)
    (hpath : path ≠ [] → celltype = current) {openRun : Option OpenRun}
    (hopen : ∀ run ∈ openRun, run.Open current index) (links : List Link) :
    ∃ run : OpenRun, run.Open celltype (index + 1) ∧
      ((fusibleRunsFrom preserving ((celltype, path) :: links) current index openRun =
            OpenRun.close openRun ++
              fusibleRunsFrom preserving links celltype (index + 1) (some run) ∧
          run.inputCelltype = current ∧ run.path = path) ∨
        ∃ old, openRun = some old ∧ JoinsRun preserving old run current (celltype, path) ∧
          fusibleRunsFrom preserving ((celltype, path) :: links) current index openRun =
            fusibleRunsFrom preserving links celltype (index + 1) (some run)) := by
  have hdeep : (current.isDeep || celltype.isDeep) = false := by rw [hcurrent, hcelltype]; rfl
  rw [fusibleRunsFrom.eq_def preserving ((celltype, path) :: links) current index openRun]
  simp only [hdeep, Bool.false_eq_true, if_false]
  by_cases hreads : path ≠ []
  · have hsame := hpath hreads
    have hnew : OpenRun.Open ⟨⟨current, path, celltype, index⟩, false, false⟩ celltype (index + 1) :=
      ⟨rfl, rfl, hcurrent, hcelltype, fun _ => ⟨hreads, hsame.symm⟩⟩
    rw [if_pos hreads]
    cases openRun with
    | none => exact ⟨_, hnew, Or.inl ⟨rfl, rfl, rfl⟩⟩
    | some old =>
      have h := hopen old rfl
      dsimp only
      by_cases hends : old.endsInConversion = false
      · rw [if_pos (by rw [hends]; rfl)]
        let run : OpenRun := { old with path := old.path ++ path, celltype, last := index }
        refine ⟨run, ⟨rfl, rfl, h.input, hcelltype, fun _ => ⟨?_, ?_⟩⟩,
          Or.inr ⟨old, rfl, joins_path h hends hreads hsame, rfl⟩⟩
        · exact List.append_ne_nil_of_left_ne_nil (h.reads hends).1 path
        · exact (h.reads hends).2.trans (h.celltype.trans hsame.symm)
      · rw [if_neg (by simpa using hends)]
        split
        · rename_i habsorbs
          simp only [Bool.and_eq_true, Bool.or_eq_true, decide_eq_true_eq] at habsorbs
          obtain ⟨⟨hnil, -⟩, hpreserving⟩ := habsorbs
          refine ⟨_, ⟨rfl, rfl, ?_, hcelltype, fun _ => ⟨hreads, ?_⟩⟩,
            Or.inr ⟨old, rfl, joins_absorbed h hnil hsame hpreserving, rfl⟩⟩
          · dsimp only
            rw [h.celltype]
            exact hcurrent
          · exact h.celltype.trans hsame.symm
        · exact ⟨_, hnew, Or.inl ⟨rfl, rfl, rfl⟩⟩
  · have hnil : path = [] := not_not.mp hreads
    subst hnil
    have hnew : OpenRun.Open ⟨⟨current, [], celltype, index⟩, true, false⟩ celltype (index + 1) :=
      ⟨rfl, rfl, hcurrent, hcelltype, fun h => nomatch h⟩
    rw [if_neg hreads]
    cases openRun with
    | none => exact ⟨_, hnew, Or.inl ⟨rfl, rfl, rfl⟩⟩
    | some old =>
      have h := hopen old rfl
      dsimp only
      by_cases hsame : celltype = current
      · subst hsame
        rw [if_pos rfl]
        let run : OpenRun := { old with last := index }
        exact ⟨run, ⟨h.celltype, rfl, h.input, hcelltype, h.reads⟩,
          Or.inr ⟨old, rfl, joins_identity old celltype index, rfl⟩⟩
      · rw [if_neg hsame]
        by_cases hends : old.endsInConversion = false
        · rw [if_neg (by rw [hends]; exact Bool.false_ne_true)]
          let run : OpenRun := { old with celltype, last := index, endsInConversion := true }
          exact ⟨run, ⟨rfl, rfl, h.input, hcelltype, fun h => (nomatch h)⟩,
            Or.inr ⟨old, rfl, joins_conversion h hends, rfl⟩⟩
        · rw [if_pos (by simpa using hends)]
          exact ⟨_, hnew, Or.inl ⟨rfl, rfl, rfl⟩⟩

/-- A link from or to a deep celltype is a run of its own. -/
theorem fusibleRunsFrom_deep (hdeep : (current.isDeep || celltype.isDeep) = true)
    (openRun : Option OpenRun) (links : List Link) :
    fusibleRunsFrom preserving ((celltype, path) :: links) current index openRun =
      OpenRun.close openRun ++ ⟨current, path, celltype, index⟩ ::
        fusibleRunsFrom preserving links celltype (index + 1) none := by
  rw [fusibleRunsFrom.eq_def]
  exact if_pos hdeep

end

variable {preserving : Celltype → Celltype → Bool}

/-- A path over a celltype that is not deep keeps it. -/
theorem celltype_of_wellTyped {current celltype : Celltype} {path : Path} {links : List Link}
    (h : WellTyped current ((celltype, path) :: links)) (hcurrent : current.isDeep = false)
    (hpath : path ≠ []) : celltype = current :=
  (h.1 hpath).trans (projectedCelltype_of_not_deep hcurrent path)

/-- The links that the runs have not taken yet, and where the open run starts. -/
structure LinksLeft (all links : List Link) (current : Celltype) (index start : Nat)
    (openRun : Option OpenRun) : Prop where
  rest : all.drop index = links
  bound : index ≤ all.length
  closed : openRun = none → start = index
  started : ∀ run ∈ openRun, run.Open current index ∧ start ≤ run.last ∧
    ∀ link ∈ (all.take index).drop start, link.1.isDeep = false

/-- The runs that closing the open run adds, before runs that follow it. -/
theorem LinksLeft.close {all links : List Link} {current : Celltype} {index start : Nat}
    {openRun : Option OpenRun} (h : LinksLeft all links current index start openRun) {runs : List Run}
    (hruns : Cuts all index runs) : Cuts all start (OpenRun.close openRun ++ runs) := by
  cases openRun with
  | none =>
    rw [h.closed rfl]
    exact hruns
  | some run =>
    obtain ⟨hopen, hstart, hshallow⟩ := h.started run rfl
    have hlast := hopen.last
    have hindex := h.bound
    refine ⟨hstart, by omega, fun _ => ⟨hopen.input, ?_⟩, ?_⟩
    · rw [hlast]
      exact hshallow
    · rw [hlast]
      exact hruns

theorem fusibleRunsFrom_cuts (all : List Link) : ∀ {links : List Link} {current : Celltype}
    {index start : Nat} {openRun : Option OpenRun}, WellTyped current links →
      LinksLeft all links current index start openRun →
        Cuts all start (fusibleRunsFrom preserving links current index openRun)
  | [], current, index, start, openRun, _, h => by
    have hindex : index = all.length := by
      have hlength := congrArg List.length h.rest
      rw [List.length_drop, List.length_nil] at hlength
      have := h.bound
      omega
    have hclose : Cuts all start (OpenRun.close openRun ++ []) := h.close hindex
    rw [List.append_nil] at hclose
    exact hclose
  | (celltype, path) :: links, current, index, start, openRun, hwell, h => by
    have hlength := congrArg List.length h.rest
    rw [List.length_drop, List.length_cons] at hlength
    have hdrop : all.drop (index + 1) = links := by
      rw [← List.drop_drop, h.rest]
      rfl
    have htake : all.take (index + 1) = all.take index ++ [(celltype, path)] := by
      have hlt : index < all.length := by omega
      have hget : all[index] = (celltype, path) := by
        have hcons := List.drop_eq_getElem_cons hlt
        rw [h.rest] at hcons
        exact (List.cons.inj hcons).1.symm
      rw [List.take_succ_eq_append_getElem hlt, hget]
    by_cases hdeep : (current.isDeep || celltype.isDeep) = true
    · rw [fusibleRunsFrom_deep hdeep]
      refine h.close ⟨Nat.le_refl _, by dsimp only; omega, fun hlt => absurd hlt (Nat.lt_irrefl _), ?_⟩
      exact fusibleRunsFrom_cuts all hwell.2
        ⟨hdrop, by omega, fun _ => rfl, fun run hrun => nomatch hrun⟩
    · rw [Bool.not_eq_true, Bool.or_eq_false_iff] at hdeep
      obtain ⟨hcurrent, hcelltype⟩ := hdeep
      obtain ⟨run, hrun, ⟨heq, -, -⟩ | ⟨old, hold, -, heq⟩⟩ :=
        fusibleRunsFrom_cons preserving hcurrent hcelltype
          (celltype_of_wellTyped hwell hcurrent) (fun run hrun => (h.started run hrun).1) links
      · rw [heq]
        refine h.close (fusibleRunsFrom_cuts all hwell.2 ⟨hdrop, by omega, fun h => (nomatch h), ?_⟩)
        intro run' hrun'
        obtain rfl := Option.some.inj hrun'
        have hlast := hrun.last
        refine ⟨hrun, by omega, fun link hlink => ?_⟩
        rw [htake, List.drop_append_of_le_length (by rw [List.length_take]; omega)] at hlink
        have hnil : (all.take index).drop index = [] :=
          List.drop_eq_nil_of_le (by rw [List.length_take]; omega)
        rw [hnil, List.nil_append] at hlink
        have hsame := List.mem_singleton.mp hlink
        subst hsame
        exact hcelltype
      · rw [heq]
        obtain ⟨hopen, hstart, hshallow⟩ := h.started old hold
        refine fusibleRunsFrom_cuts all hwell.2 ⟨hdrop, by omega, fun h => (nomatch h), ?_⟩
        intro run' hrun'
        obtain rfl := Option.some.inj hrun'
        have hlast := hrun.last
        have hbefore := hopen.last
        refine ⟨hrun, by omega, fun link hlink => ?_⟩
        rw [htake, List.drop_append_of_le_length (by rw [List.length_take]; omega)] at hlink
        rcases List.mem_append.mp hlink with hin | hin
        · exact hshallow link hin
        · have hsame := List.mem_singleton.mp hin
          subst hsame
          exact hcelltype

/-! ## What runs and links evaluate to -/

namespace ExpressionClass

variable {E : ExpressionClass}

/-- A path over a celltype that is not deep stays one Expression. -/
theorem project_of_not_deep {celltype : Celltype} (h : celltype.isDeep = false) (path : Path)
    (targetType : Celltype) : E.project path celltype targetType = E.apply path celltype targetType := by
  funext checksum
  unfold project deepBarrier
  cases path with
  | nil => rfl
  | cons k path =>
    simp only [h]
    rfl

theorem evaluateRuns_append : ∀ (runs runs' : List Run) (checksum : Checksum),
    E.evaluateRuns (runs ++ runs') checksum =
      (E.evaluateRuns runs checksum).bind (E.evaluateRuns runs')
  | [], _, _ => rfl
  | run :: runs, runs', checksum => by
    have ih : E.evaluateRuns (runs ++ runs') =
        fun checksum => (E.evaluateRuns runs checksum).bind (E.evaluateRuns runs') :=
      funext (evaluateRuns_append runs runs')
    show (E.project _ _ _ checksum).bind (E.evaluateRuns (runs ++ runs')) =
      ((E.project _ _ _ checksum).bind (E.evaluateRuns runs)).bind (E.evaluateRuns runs')
    rw [ih, Option.bind_assoc]

/-- What the open run evaluates to, if there is one. -/
def openedValue (E : ExpressionClass) : Option OpenRun → Checksum → Option Checksum
  | none => some
  | some run => E.openValue run

theorem evaluateRuns_close {openRun : Option OpenRun}
    (h : ∀ run ∈ openRun, run.inputCelltype.isDeep = false) (checksum : Checksum) :
    E.evaluateRuns (OpenRun.close openRun) checksum = E.openedValue openRun checksum := by
  cases openRun with
  | none => rfl
  | some run =>
    show (E.project run.path run.inputCelltype run.celltype checksum).bind some = _
    rw [Option.bind_fun_some, project_of_not_deep (h run rfl)]
    rfl

/-- Grouping links into runs does not change what they evaluate to: the open run stands for the links
that it has taken. -/
theorem evaluateRuns_fusibleRunsFrom (hE : E.Lawful preserving) : ∀ {links : List Link}
    {current : Celltype} {index : Nat} {openRun : Option OpenRun}, WellTyped current links →
      (∀ run ∈ openRun, run.Open current index) → ∀ checksum,
        E.evaluateRuns (fusibleRunsFrom preserving links current index openRun) checksum =
          (E.openedValue openRun checksum).bind (E.evaluateLinks current links)
  | [], current, index, openRun, _, h, checksum => by
    have hclose := evaluateRuns_close (E := E) (fun run hrun => (h run hrun).input) checksum
    exact hclose.trans (Option.bind_fun_some _).symm
  | (celltype, path) :: links, current, index, openRun, hwell, h, checksum => by
    have hclose : ∀ runs, E.evaluateRuns (OpenRun.close openRun ++ runs) checksum =
        (E.openedValue openRun checksum).bind (E.evaluateRuns runs) := by
      intro runs
      rw [evaluateRuns_append, evaluateRuns_close (fun run hrun => (h run hrun).input)]
    by_cases hdeep : (current.isDeep || celltype.isDeep) = true
    · have hnone : ∀ run ∈ (none : Option OpenRun), run.Open celltype (index + 1) :=
        fun run hrun => nomatch hrun
      have ih : E.evaluateRuns (fusibleRunsFrom preserving links celltype (index + 1) none) =
          E.evaluateLinks celltype links :=
        funext fun c => evaluateRuns_fusibleRunsFrom hE hwell.2 hnone c
      rw [fusibleRunsFrom_deep hdeep, hclose]
      congr 1
      funext c
      show (E.project path current celltype c).bind _ = (E.project path current celltype c).bind _
      rw [ih]
    · rw [Bool.not_eq_true, Bool.or_eq_false_iff] at hdeep
      obtain ⟨hcurrent, hcelltype⟩ := hdeep
      obtain ⟨run, hrun, hcases⟩ := fusibleRunsFrom_cons preserving hcurrent hcelltype
        (celltype_of_wellTyped hwell hcurrent) h links
      have hlater : ∀ c, E.evaluateRuns
          (fusibleRunsFrom preserving links celltype (index + 1) (some run)) c =
            (E.openValue run c).bind (E.evaluateLinks celltype links) := by
        refine evaluateRuns_fusibleRunsFrom hE hwell.2 fun run' hrun' => ?_
        obtain rfl := Option.some.inj hrun'
        exact hrun
      have hlink : E.project path current celltype = E.apply path current celltype :=
        project_of_not_deep hcurrent path celltype
      rcases hcases with ⟨heq, hinput, hpath⟩ | ⟨old, rfl, hjoins, heq⟩
      · -- the link is a run of its own, after the run that was open
        rw [heq, hclose]
        congr 1
        funext c
        rw [hlater c]
        show _ = (E.project path current celltype c).bind (E.evaluateLinks celltype links)
        rw [hlink, openValue, hinput, hpath, hrun.celltype]
      · rw [heq, hlater checksum, hjoins E hE checksum, Option.bind_assoc]
        show _ = (E.openValue old checksum).bind fun c =>
          (E.project path current celltype c).bind (E.evaluateLinks celltype links)
        rw [hlink]

end ExpressionClass

end SeamlessWorkflow
