import SeamlessWorkflow.Proofs.NodeRecords
import SeamlessWorkflow.Proofs.RecipeCelltypes

/-!
# Walks to a holder that is not scratch

A scratch result is kept when something that is not scratch holds it. `_feeds_non_scratch_holder` looks
for such a holder with a walk of its own over the edges; derivation decides by what it converts. The
walks of derivation are defined here, with what their edges deliver and hold.
-/

namespace SeamlessWorkflow

open Relation

/-! ## What keeps a checksum -/

/-- A conversion keeps the checksum: an identity, a trivial or a reinterpreting one. -/
def Substrate.Keeps (env : Substrate) (input output : Celltype) : Prop :=
  input = output ∨ env.preserving input output = true

instance (env : Substrate) (input output : Celltype) : Decidable (env.Keeps input output) :=
  inferInstanceAs (Decidable (_ ∨ _))

/-- Links that keep the checksum: conversions that do, and no paths. -/
def Substrate.KeepsThrough (env : Substrate) : Celltype → List Link → Prop
  | _, [] => True
  | current, link :: links =>
    link.2 = [] ∧ env.Keeps current link.1 ∧ env.KeepsThrough link.1 links

instance Substrate.decidableKeepsThrough (env : Substrate) :
    ∀ (current : Celltype) (links : List Link), Decidable (env.KeepsThrough current links)
  | _, [] => .isTrue trivial
  | current, link :: links =>
    have := env.decidableKeepsThrough link.1 links
    inferInstanceAs
      (Decidable (link.2 = [] ∧ env.Keeps current link.1 ∧ env.KeepsThrough link.1 links))

/-- A known result of a conversion that keeps the checksum is the checksum it has read. -/
def Substrate.KeepsChecksums (env : Substrate) (v : View) : Prop :=
  ∀ checksum input output validator validatorLanguage scratch materialize result,
    v.facts.lookup (.expression checksum [] input output validator validatorLanguage scratch
      materialize) = some (.result result) → env.Keeps input output → result = checksum

/-- A run that keeps the checksum. -/
def Run.Keeps (env : Substrate) (run : Run) : Prop :=
  run.path = [] ∧ env.Keeps run.inputCelltype run.celltype

theorem fusibleRunsFrom_keeps {env : Substrate} : ∀ {links : List Link} {current : Celltype}
    {index : Nat} {openRun : Option OpenRun}, env.KeepsThrough current links →
      (∀ run ∈ openRun, run.endsInConversion = true ∧ run.toRun.Keeps env) →
        ∀ run ∈ fusibleRunsFrom env.preserving links current index openRun, run.Keeps env := by
  have hclose : ∀ {openRun : Option OpenRun},
      (∀ run ∈ openRun, run.endsInConversion = true ∧ run.toRun.Keeps env) →
        ∀ run ∈ OpenRun.close openRun, run.Keeps env := by
    intro openRun hopen run hrun
    cases openRun with
    | none => cases hrun
    | some old =>
      obtain rfl := List.mem_singleton.mp hrun
      exact (hopen old rfl).2
  intro links
  induction links with
  | nil => exact fun _ hopen => hclose hopen
  | cons link links ih =>
    intro current index openRun hkeeps hopen run hrun
    obtain ⟨celltype, path⟩ := link
    obtain ⟨hpath, hlink, hrest⟩ := hkeeps
    obtain rfl : path = [] := hpath
    have hfresh : ∀ fresh ∈ some (⟨⟨current, [], celltype, index⟩, true, false⟩ : OpenRun),
        fresh.endsInConversion = true ∧ fresh.toRun.Keeps env := by
      intro fresh hf
      obtain rfl := Option.mem_some_iff.mp hf
      exact ⟨rfl, rfl, hlink⟩
    have hnone : ∀ fresh ∈ (none : Option OpenRun),
        fresh.endsInConversion = true ∧ fresh.toRun.Keeps env := fun fresh hf => nomatch hf
    rw [fusibleRunsFrom.eq_def] at hrun
    dsimp only at hrun
    split at hrun
    · rcases List.mem_append.mp hrun with hrun | hrun
      · exact hclose hopen run hrun
      · rcases List.mem_cons.mp hrun with rfl | hrun
        · exact ⟨rfl, hlink⟩
        · exact ih hrest hnone run hrun
    · rw [if_neg (not_not.mpr rfl)] at hrun
      cases openRun with
      | none => exact ih hrest hfresh run hrun
      | some old =>
        obtain ⟨hends, hold⟩ := hopen old rfl
        dsimp only at hrun
        by_cases hsame : celltype = current
        · rw [if_pos hsame] at hrun
          refine ih hrest (fun joined hj => ?_) run hrun
          obtain rfl := Option.mem_some_iff.mp hj
          exact ⟨hends, hold⟩
        · rw [if_neg hsame, if_pos hends] at hrun
          rcases List.mem_cons.mp hrun with rfl | hrun
          · exact hold
          · exact ih hrest hfresh run hrun

section Delivery

variable {env : Substrate} {v : View}

theorem projection_keeps (hv : env.KeepsChecksums v) {checksum : Checksum} {input output : Celltype}
    {policy : Policy} (hk : env.Keeps input output)
    (hs : (projection env v checksum [] input output policy).value.state = .complete) :
    (projection env v checksum [] input output policy).value.checksum = some checksum := by
  have hstep : projection env v checksum [] input output policy =
      expressionStep env v checksum [] input output policy := rfl
  rw [hstep] at hs ⊢
  unfold expressionStep at hs ⊢
  split
  · rename_i e he
    rw [he] at hs
    cases hs
  · rename_i he
    rw [he] at hs
    unfold demand at hs ⊢
    dsimp only at hs ⊢
    split
    · rename_i result hresult
      rw [hv _ _ _ _ _ _ _ _ hresult hk]
    · rename_i e hfact
      rw [hfact] at hs
      cases hs
    · rename_i hfact
      rw [hfact] at hs
      cases hs

theorem evaluateRuns_keeps (hv : env.KeepsChecksums v) (edge : Edge) (sourceNode : NodePath)
    (links : List Link) (chainOffset : Nat) (scratch materialize : Bool) : ∀ (runs : List Run)
    (checksum : Checksum), (∀ run ∈ runs, run.Keeps env) →
      (evaluateRuns env v edge sourceNode links chainOffset scratch materialize runs
        checksum).value.state = .complete →
      (evaluateRuns env v edge sourceNode links chainOffset scratch materialize runs
        checksum).value.checksum = some checksum := by
  intro runs
  induction runs with
  | nil => exact fun _ _ _ => rfl
  | cons run runs ih =>
    intro checksum hruns hs
    obtain ⟨hpath, hkeeps⟩ := hruns run (List.mem_cons_self ..)
    unfold evaluateRuns at hs ⊢
    dsimp only at hs ⊢
    cases herror : env.expressionError run.path run.inputCelltype run.celltype none none with
    | some e =>
      rw [herror] at hs
      cases hs
    | none =>
      rw [herror] at hs
      dsimp only at hs ⊢
      rw [Evaluated.value_bind] at hs ⊢
      generalize hpolicy : Policy.mk none none (if decide (runs = []) = true then scratch else true)
        (if decide (runs = []) = true then materialize else false) = policy at hs ⊢
      rw [hpath] at hs ⊢
      have hread := @projection_keeps env v hv checksum _ _ policy hkeeps
      generalize (projection env v checksum [] run.inputCelltype run.celltype policy).value = result
        at hs hread ⊢
      obtain ⟨state, read, error⟩ := result
      cases state with
      | complete =>
        obtain rfl : read = some checksum := hread rfl
        dsimp only at hs ⊢
        by_cases hlast : runs = []
        · rw [if_pos (decide_eq_true hlast)]
          rfl
        · rw [if_neg (by simpa using hlast)] at hs ⊢
          rw [Evaluated.value_bind] at hs ⊢
          exact ih checksum (fun run hrun => hruns run (List.mem_cons_of_mem _ hrun)) hs
      | miswired | unwired | blocked | waiting | computing | failed => cases hs

end Delivery

/-! ## The edges of a walk -/

namespace ContextGraph

/-- A recipe hands the checksum of a node on: it reads the node as a whole, and its conversions keep the
checksum. -/
structure HandsOn (env : Substrate) (g : ContextGraph) (edge : Edge) (source : NodePath) : Prop where
  unprojected : g.resolveExisting edge.source = some (source, [])
  keeps : env.KeepsThrough (g.nodeCelltype source) (anonymousLinks (g.nodeCelltype source) []
    (recipeSteps edge [] (sourceTypeOf g edge source [])))

/-- What an edge delivers at a path of its target becomes the input there with nothing but a conversion
that keeps the checksum. A cell does not convert what a recipe has converted, and code is never
converted. -/
inductive Takes (env : Substrate) (g : ContextGraph) (edge : Edge) (source : NodePath) :
    NodeBody → Path → Prop
  | converted (fields : CellFields) (h : edge.sourceConversion = true) :
      Takes env g edge source (.cell fields) []
  | cell (fields : CellFields) (h : env.Keeps (g.nodeCelltype source) fields.config.celltype) :
      Takes env g edge source (.cell fields) []
  | pin (fields : TransformerFields) (name : String) (declared : name ∈ fields.config.pins)
      (h : env.Keeps (g.edgeInputCelltype edge) (fields.config.celltypeOf name)) :
      Takes env g edge source (.transformer fields) [.key name]
  | code (fields : TransformerFields) : Takes env g edge source (.transformer fields) [.key "code"]

/-- An edge by which an input of a node takes the checksum of another node over unchanged. -/
structure Hands (env : Substrate) (g : ContextGraph) (edge : Edge) (source target : NodePath)
    (localPath : Path) (node : Node) : Prop where
  mem : edge ∈ g.edges
  handsOn : g.HandsOn env (g.ownLink edge) source
  resolves : g.resolveExisting edge.target = some (target, localPath)
  lookup : g.nodes.lookup target = some node
  takes : Takes env g (g.ownLink edge) source node.body localPath

/-- A place on a walk: a node, or the input at its end that is not scratch. -/
abbrev Waypoint := Option NodePath

/-- One step of a walk: to a scratch cell, or to an input that is not scratch. -/
inductive WalkStep (env : Substrate) (g : ContextGraph) : Waypoint → Waypoint → Prop
  | through {edge : Edge} {source target : NodePath} {localPath : Path} {node : Node}
      (hands : g.Hands env edge source target localPath node) (isCell : node.isCell = true)
      (scratch : edgeTargetScratch node = true) : WalkStep env g (some source) (some target)
  | held {edge : Edge} {source target : NodePath} {localPath : Path} {node : Node}
      (hands : g.Hands env edge source target localPath node)
      (scratch : edgeTargetScratch node = false) : WalkStep env g (some source) none

/-- A result is fed unchanged, through scratch cells only, to an input that is not scratch. -/
def FeedsHolder (env : Substrate) (g : ContextGraph) (path : NodePath) : Prop :=
  ReflTransGen (g.WalkStep env) (some path) none

end ContextGraph

/-! ## What derivation makes of a walk -/

section Takeover

variable {env : Substrate} {v : View} {edge : Edge} {source : NodePath} {node : Node} {c : Checksum}

theorem evaluateRecipe_keeps (hv : env.KeepsChecksums v) (edge : Edge) (sourceNode : NodePath)
    {rootType : Celltype} {steps : List ConversionStep}
    (hk : env.KeepsThrough rootType (anonymousLinks rootType [] steps)) (chainOffset : Nat)
    (scratch materialize : Bool)
    (hs : (evaluateRecipe env v edge sourceNode c rootType [] steps chainOffset scratch
      materialize).value.state = .complete) :
    (evaluateRecipe env v edge sourceNode c rootType [] steps chainOffset scratch
      materialize).value.checksum = some c := by
  unfold evaluateRecipe at hs ⊢
  dsimp only at hs ⊢
  by_cases hsteps : steps = []
  · rw [if_neg (not_not.mpr hsteps), if_neg (not_not.mpr rfl)]
    rfl
  · rw [if_pos hsteps] at hs ⊢
    exact evaluateRuns_keeps hv _ _ _ _ _ _ _ _ (fusibleRunsFrom_keeps hk fun run hrun => nomatch hrun)
      hs

theorem evaluateSource_keeps (hv : env.KeepsChecksums v) (edge : Edge) {sourceNode : NodePath}
    (hk : env.KeepsThrough (v.graph.nodeCelltype sourceNode)
      (anonymousLinks (v.graph.nodeCelltype sourceNode) []
        (recipeSteps edge [] (sourceTypeOf v.graph edge sourceNode []))))
    (hc : node.currentChecksum = some c) (target : Node) (targetLocal : Path)
    (hs : (evaluateSource env v edge sourceNode [] node target targetLocal).value.state =
      .complete) :
    (evaluateSource env v edge sourceNode [] node target targetLocal).value.checksum = some c := by
  unfold evaluateSource at hs ⊢
  split at hs
  · cases hs
  · rename_i hblocked
    rw [if_neg hblocked]
    split at hs
    · rename_i hincomplete
      have hdone : incompleteSource node = .complete := hs
      exact absurd (incompleteSource_ne_complete hincomplete) (not_not.mpr hdone)
    · rename_i hcomplete
      rw [if_neg hcomplete]
      rw [hc] at hs ⊢
      exact evaluateRecipe_keeps hv edge sourceNode hk 0 _ _ hs

theorem sourceState_keeps (hv : env.KeepsChecksums v) (h : v.graph.HandsOn env edge source)
    (hn : v.graph.nodes.lookup source = some node) (hc : node.currentChecksum = some c)
    (hs : (sourceState env v edge).value.state = .complete) :
    (sourceState env v edge).value.checksum = some c := by
  unfold sourceState at hs ⊢
  rw [h.unprojected] at hs ⊢
  split at hs
  · cases hs
  · cases hs
  · split at hs
    · rename_i sourceNode sourceLocal target targetLocal hsource htarget
      obtain ⟨rfl, rfl⟩ := Prod.mk.inj (Option.some.inj hsource)
      rw [hn] at hs ⊢
      split at hs
      · rename_i sourceRecord targetNode hsourceRecord htargetNode
        obtain rfl := Option.some.inj hsourceRecord
        split at hs
        · cases hs
        · rename_i hmatches
          rw [if_neg hmatches]
          exact evaluateSource_keeps hv edge h.keeps hc targetNode targetLocal hs
      · cases hs
    · cases hs

/-- A cell that takes a checksum over unchanged has that checksum. -/
theorem rootEdgeOutcome_keeps (hv : env.KeepsChecksums v) (h : v.graph.HandsOn env edge source)
    (hn : v.graph.nodes.lookup source = some node) (hc : node.currentChecksum = some c)
    {fields : CellFields} (htakes : v.graph.Takes env edge source (.cell fields) [])
    (hs : (rootEdgeOutcome env v fields.config edge source []).value.state = .complete) :
    (rootEdgeOutcome env v fields.config edge source []).value.checksum = some c := by
  unfold rootEdgeOutcome at hs ⊢
  rw [Evaluated.value_bind] at hs ⊢
  have hread := sourceState_keeps hv h hn hc
  generalize (sourceState env v edge).value = result at hs hread ⊢
  obtain ⟨state, checksum, error⟩ := result
  cases state with
  | complete =>
    obtain rfl : checksum = some c := hread rfl
    dsimp only at hs ⊢
    split
    · rename_i hconverts
      rw [if_pos hconverts] at hs
      simp only [Bool.and_eq_true, decide_eq_true_eq, Bool.not_eq_true'] at hconverts
      rw [Evaluated.value_bind] at hs ⊢
      cases htakes with
      | converted _ hconverted =>
        rw [hconverted] at hconverts
        cases hconverts.1.1
      | cell _ hkeeps => exact projection_keeps hv hkeeps hs
    · rfl
  | failed =>
    dsimp only at hs
    split at hs <;> cases hs
  | miswired | unwired | blocked | waiting | computing | blockedByMiswiring => cases hs

theorem cellOutcome_keeps (hv : env.KeepsChecksums v) (h : v.graph.HandsOn env edge source)
    (hn : v.graph.nodes.lookup source = some node) (hc : node.currentChecksum = some c)
    {fields : CellFields} (htakes : v.graph.Takes env edge source (.cell fields) [])
    {target : NodePath} (hin : (v.graph.incomingFor target).lookup [] = some edge)
    (senseErrors : List Error)
    (hs : (cellOutcome env v senseErrors target fields).value.state = .complete) :
    (cellOutcome env v senseErrors target fields).value.checksum = some c := by
  have hroot := rootEdgeOutcome_keeps hv h hn hc htakes
  unfold cellOutcome at hs ⊢
  cases senseErrors with
  | cons e errors => cases hs
  | nil =>
    dsimp only at hs ⊢
    rw [hin] at hs ⊢
    dsimp only at hs ⊢
    rw [h.unprojected] at hs ⊢
    dsimp only at hs ⊢
    -- an edge that reads the whole node is never a plain projection
    split at hs
    · rw [if_neg (by simp)] at hs ⊢
      exact hroot hs
    · exact hroot hs

/-- What the edge of a pin delivers: the checksum, in its canonical form, unless the pin cannot be
complete. -/
theorem pinInput_keeps (hv : env.KeepsChecksums v) (h : v.graph.HandsOn env edge source)
    (hn : v.graph.nodes.lookup source = some node) (hc : node.currentChecksum = some c)
    (fields : TransformerFields) {incoming : List (Path × Edge)} {pin : String}
    (hin : incoming.lookup [.key pin] = some edge) :
    (pinInput env v fields incoming pin).value =
        .inr ⟨env.canonicalize c (v.graph.edgeInputCelltype edge), v.graph.edgeInputCelltype edge, true⟩ ∨
      ∃ reading : PinReading, (pinInput env v fields incoming pin).value = .inl reading ∧
        reading.state.state ≠ .complete := by
  have hread := sourceState_keeps hv h hn hc
  unfold pinInput
  rw [hin]
  dsimp only
  rw [Evaluated.value_bind]
  generalize (sourceState env v edge).value = result at hread ⊢
  obtain ⟨state, checksum, error⟩ := result
  cases state with
  | complete =>
    obtain rfl : checksum = some c := hread rfl
    exact Or.inl rfl
  | miswired | unwired | blocked | waiting | computing | failed | blockedByMiswiring =>
    exact Or.inr ⟨_, rfl, fun hs => nomatch hs⟩

theorem pinChecked_complete {fields : TransformerFields} {pin : String} {celltype : Celltype}
    {input : PinInput} {checksum : Checksum}
    (hs : (pinChecked env fields pin celltype input checksum).state.state = .complete) :
    (pinChecked env fields pin celltype input checksum).state.checksum = some checksum := by
  unfold pinChecked at hs ⊢
  dsimp only at hs ⊢
  split at hs
  · cases hs
  · split at hs
    · cases hs
    · cases hs
    · rfl

/-- A pin that takes a checksum over unchanged has that checksum, in its canonical form. -/
theorem pinReading_keeps (hv : env.KeepsChecksums v) (h : v.graph.HandsOn env edge source)
    (hn : v.graph.nodes.lookup source = some node) (hc : node.currentChecksum = some c)
    {fields : TransformerFields} {incoming : List (Path × Edge)} {pin : String}
    (hin : incoming.lookup [.key pin] = some edge)
    (hkeeps : env.Keeps (v.graph.edgeInputCelltype edge) (fields.config.celltypeOf pin))
    (hs : (pinReading env v fields incoming pin).value.state.state = .complete) :
    (pinReading env v fields incoming pin).value.state.checksum =
      some (env.canonicalize c (v.graph.edgeInputCelltype edge)) := by
  unfold pinReading at hs ⊢
  dsimp only at hs ⊢
  rw [Evaluated.value_bind] at hs ⊢
  rcases pinInput_keeps hv h hn hc fields hin with hinput | ⟨reading, hinput, hincomplete⟩
  · rw [hinput] at hs ⊢
    generalize env.canonicalize c (v.graph.edgeInputCelltype edge) = canonical at hs ⊢
    dsimp only at hs ⊢
    by_cases hnull : (env.isNull canonical && fields.config.optionalPins.contains pin) = true
    · rw [if_pos hnull] at hs ⊢
      split at hs
      · cases hs
      · rfl
    · rw [if_neg hnull] at hs ⊢
      split at hs
      · cases hs
      · by_cases hsame : v.graph.edgeInputCelltype edge = fields.config.celltypeOf pin
        · rw [if_pos hsame] at hs ⊢
          exact pinChecked_complete hs
        · rw [if_neg hsame] at hs ⊢
          rw [Evaluated.value_bind] at hs ⊢
          generalize Policy.mk none none _ _ = policy at hs ⊢
          have hread := @projection_keeps env v hv canonical _ _ policy hkeeps
          generalize (projection env v canonical [] (v.graph.edgeInputCelltype edge)
            (fields.config.celltypeOf pin) policy).value = result at hs hread ⊢
          obtain ⟨state, checksum, error⟩ := result
          cases state with
          | complete =>
            obtain rfl : checksum = some canonical := hread rfl
            exact pinChecked_complete hs
          | miswired | unwired | blocked | waiting | computing | failed => cases hs
  · rw [hinput] at hs
    exact absurd hs hincomplete

/-- The code that an edge delivers is the checksum of its source. -/
theorem codeReading_keeps (hv : env.KeepsChecksums v) (h : v.graph.HandsOn env edge source)
    (hn : v.graph.nodes.lookup source = some node) (hc : node.currentChecksum = some c)
    {fields : TransformerFields} {incoming : List (Path × Edge)}
    (hin : incoming.lookup [.key "code"] = some edge) {code : Checksum}
    (hcode : (codeReading env v fields incoming).value = .inr code) : code = c := by
  have hread := sourceState_keeps hv h hn hc
  unfold codeReading at hcode
  rw [hin] at hcode
  dsimp only at hcode
  rw [Evaluated.value_bind] at hcode
  generalize (sourceState env v edge).value = result at hread hcode
  obtain ⟨state, checksum, error⟩ := result
  cases state with
  | complete =>
    obtain rfl : checksum = some c := hread rfl
    exact (Sum.inr.inj hcode).symm
  | miswired | unwired | blocked | waiting | computing | failed | blockedByMiswiring => cases hcode

end Takeover

/-! ## What is held for edges -/

/-- A table that is filled in turn keeps what one of the rounds writes at a key, when no other round
writes there. -/
theorem lookup_foldl_of_mem {α κ β : Type} [DecidableEq κ]
    {f : AList (fun _ : κ => β) → α → AList (fun _ : κ => β)} {key : κ} {a : α} {r : β}
    (hown : ∀ table, (f table a).lookup key = some r) : ∀ {l : List α}, a ∈ l →
      (∀ b ∈ l, b ≠ a → ∀ table, (f table b).lookup key = table.lookup key) →
        ∀ table, (l.foldl f table).lookup key = some r := by
  have hkept : ∀ {l : List α}, (∀ b ∈ l, b ≠ a → ∀ table, (f table b).lookup key = table.lookup key) →
      ∀ table : AList (fun _ : κ => β), table.lookup key = some r →
        (l.foldl f table).lookup key = some r := by
    intro l
    induction l with
    | nil => exact fun _ _ h => h
    | cons b l ih =>
      intro hother table h
      refine ih (fun x hx => hother x (List.mem_cons_of_mem _ hx)) _ ?_
      by_cases hb : b = a
      · rw [hb]
        exact hown table
      · rw [hother b (List.mem_cons_self ..) hb]
        exact h
  intro l ha hother table
  obtain ⟨before, after, rfl⟩ := List.append_of_mem ha
  rw [List.foldl_append, List.foldl_cons]
  refine hkept (fun b hb => hother b ?_) _ (hown _)
  exact List.mem_append_right _ (List.mem_cons_of_mem _ hb)

namespace Ctx

/-- The rounds of `wantedEdgePins` over the pins of one node. -/
def wantPin (ctx : Ctx) (path : NodePath) (scratch : Bool)
    (wanted : AList (fun _ : NodePath × String => Checksum × Bool))
    (pin : (_ : String) × PinState) : AList (fun _ : NodePath × String => Checksum × Bool) :=
  match pin.2.state, pin.2.checksum with
  | .complete, some c =>
    if (ctx.graph.incomingEdge path [.key pin.1]).isSome then wanted.insert (path, pin.1) (c, scratch)
    else wanted
  | _, _ => wanted

/-- The rounds of `wantedEdgePins` over the nodes. -/
def wantInputs (ctx : Ctx) (wanted : AList (fun _ : NodePath × String => Checksum × Bool))
    (entry : (_ : NodePath) × Node) : AList (fun _ : NodePath × String => Checksum × Bool) :=
  match entry.2.transformerFields with
  | none => wanted
  | some fields =>
    let scratch := edgeTargetScratch entry.2
    let wanted := fields.pinStates.entries.foldl (ctx.wantPin entry.1 scratch) wanted
    match ctx.edgeCodeStates.lookup entry.1 with
    | some code => wanted.insert (entry.1, "code") (code, scratch)
    | none => wanted

theorem wantedEdgePins_eq (ctx : Ctx) :
    ctx.wantedEdgePins = ctx.graph.nodes.entries.foldl ctx.wantInputs ∅ := rfl

variable {ctx : Ctx} {path : NodePath} {scratch : Bool} {c : Checksum}

theorem lookup_wantPin_of_ne {key : NodePath × String} {pin : (_ : String) × PinState}
    (h : key ≠ (path, pin.1)) (wanted : AList (fun _ : NodePath × String => Checksum × Bool)) :
    (ctx.wantPin path scratch wanted pin).lookup key = wanted.lookup key := by
  unfold wantPin
  split
  · split
    · exact AList.lookup_insert_ne h
    · rfl
  · rfl

theorem lookup_wantPins_of_ne {key : NodePath × String} (h : key.1 ≠ path) :
    ∀ (pins : List ((_ : String) × PinState))
      (wanted : AList (fun _ : NodePath × String => Checksum × Bool)),
      (pins.foldl (ctx.wantPin path scratch) wanted).lookup key = wanted.lookup key := by
  intro pins
  induction pins with
  | nil => exact fun _ => rfl
  | cons pin pins ih =>
    intro wanted
    refine (ih _).trans (lookup_wantPin_of_ne (fun heq => h ?_) wanted)
    rw [heq]

theorem lookup_wantInputs_of_ne {key : NodePath × String} {entry : (_ : NodePath) × Node}
    (h : key.1 ≠ entry.1) (wanted : AList (fun _ : NodePath × String => Checksum × Bool)) :
    (ctx.wantInputs wanted entry).lookup key = wanted.lookup key := by
  unfold wantInputs
  split
  · rfl
  · dsimp only
    split
    · rw [AList.lookup_insert_ne fun heq => h (by rw [heq]), lookup_wantPins_of_ne h]
    · exact lookup_wantPins_of_ne h _ wanted

/-- What the round of a node writes is what is wanted for it. -/
theorem lookup_wantedEdgePins {node : Node} (hn : ctx.graph.nodes.lookup path = some node)
    {name : String} {held : Checksum × Bool}
    (h : ∀ wanted, (ctx.wantInputs wanted ⟨path, node⟩).lookup (path, name) = some held) :
    ctx.wantedEdgePins.lookup (path, name) = some held := by
  rw [wantedEdgePins_eq]
  refine lookup_foldl_of_mem (a := ⟨path, node⟩) h (AList.mem_lookup_iff.mp hn) ?_ ∅
  intro entry hentry hne wanted
  refine lookup_wantInputs_of_ne (fun heq => hne ?_) wanted
  obtain ⟨other, otherNode⟩ := entry
  obtain rfl : path = other := heq
  have hsame := AList.mem_lookup_iff.mpr hentry
  rw [Option.mem_def, hn] at hsame
  rw [Option.some.inj hsame]

/-- The code that an edge delivers is held as the target holds its inputs. -/
theorem wantedEdgePins_code {node : Node} {fields : TransformerFields}
    (hn : ctx.graph.nodes.lookup path = some node) (hf : node.transformerFields = some fields)
    (hc : ctx.edgeCodeStates.lookup path = some c) :
    ctx.wantedEdgePins.lookup (path, "code") = some (c, edgeTargetScratch node) := by
  refine lookup_wantedEdgePins hn fun wanted => ?_
  unfold wantInputs
  rw [hf]
  dsimp only
  rw [hc]
  exact AList.lookup_insert _

/-- The checksum of a complete pin that has an edge is held as the target holds its inputs. -/
theorem wantedEdgePins_pin {node : Node} {fields : TransformerFields} {pin : String} {state : PinState}
    (hn : ctx.graph.nodes.lookup path = some node) (hf : node.transformerFields = some fields)
    (hp : fields.pinStates.lookup pin = some state) (hs : state.state = .complete)
    (hc : state.checksum = some c) (hin : (ctx.graph.incomingEdge path [.key pin]).isSome = true)
    (hcode : pin ≠ "code") :
    ctx.wantedEdgePins.lookup (path, pin) = some (c, edgeTargetScratch node) := by
  refine lookup_wantedEdgePins hn fun wanted => ?_
  have hpins : (fields.pinStates.entries.foldl (ctx.wantPin path (edgeTargetScratch node))
      wanted).lookup (path, pin) = some (c, edgeTargetScratch node) := by
    refine lookup_foldl_of_mem (a := ⟨pin, state⟩) (fun table => ?_) (AList.mem_lookup_iff.mp hp) ?_
      wanted
    · unfold wantPin
      rw [hs, hc]
      dsimp only
      rw [if_pos hin]
      exact AList.lookup_insert _
    · intro other hother hne table
      refine lookup_wantPin_of_ne (fun heq => hne ?_) table
      obtain ⟨name, otherState⟩ := other
      obtain rfl : pin = name := (Prod.mk.inj heq).2
      have hsame := AList.mem_lookup_iff.mpr hother
      rw [Option.mem_def, hp] at hsame
      rw [Option.some.inj hsame]
  unfold wantInputs
  rw [hf]
  dsimp only
  split
  · rw [AList.lookup_insert_ne fun heq => hcode (Prod.mk.inj heq).2]
    exact hpins
  · exact hpins

end Ctx

end SeamlessWorkflow
