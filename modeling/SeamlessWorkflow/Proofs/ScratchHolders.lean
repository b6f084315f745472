import SeamlessWorkflow.Proofs.DeliveredCelltypes
import SeamlessWorkflow.Proofs.Holders
import SeamlessWorkflow.Proofs.ScratchWalks

/-!
# The search for a holder that is not scratch

`_feeds_non_scratch_holder` judges an edge by the celltypes at its end: it asks one more conversion of
what arrives at a cell or at code, takes every input of a transformer for a pin, and has no answer to an
edge that ends at a transformer itself. Where no edge tells this apart from what derivation does, the
search finds a holder exactly when a walk leads to one.
-/

namespace SeamlessWorkflow

open Relation

namespace ContextGraph

variable {env : Substrate} {g : ContextGraph} {edge : Edge} {source target path : NodePath}
  {celltype : Celltype} {localPath : Path} {node : Node}

/-! ## What an edge has recorded -/

theorem anonymousLinks_whole (celltype : Celltype) (steps : List ConversionStep) :
    anonymousLinks celltype [] steps = (sortedSteps steps).map fun step => (step.2, []) := by
  have hfrom : ∀ (steps : List ConversionStep) (current : Celltype) (position : Nat),
      anonymousLinksFrom [] steps current position = steps.map fun step => (step.2, []) := by
    intro steps
    induction steps with
    | nil =>
      intro current position
      unfold anonymousLinksFrom
      rw [List.drop_nil]
      rfl
    | cons step steps ih =>
      intro current position
      unfold anonymousLinksFrom
      dsimp only
      rw [List.take_nil, List.drop_nil, ih]
      rfl
  exact hfrom _ _ _

theorem foldl_preserved_none (env : Substrate) (converted : List Celltype) :
    converted.foldl (fun current converted =>
      match current with
      | none => none
      | some current =>
        if current = converted || env.preserving current converted then some converted else none)
      none = none := by
  induction converted with
  | nil => rfl
  | cons c converted ih => exact ih

theorem foldl_preserved_eq_some (env : Substrate) {output : Celltype} :
    ∀ (steps : List ConversionStep) (current : Celltype),
      (steps.map Prod.snd).foldl (fun current converted =>
        match current with
        | none => none
        | some current =>
          if current = converted || env.preserving current converted then some converted else none)
        (some current) = some output ↔
      env.KeepsThrough current (steps.map fun step => (step.2, [])) ∧
        linksCelltype current (steps.map fun step => (step.2, [])) = output := by
  intro steps
  induction steps with
  | nil =>
    intro current
    exact ⟨fun h => ⟨trivial, Option.some.inj h⟩, fun h => congrArg some h.2⟩
  | cons step steps ih =>
    intro current
    rw [List.map_cons, List.foldl_cons, List.map_cons, linksCelltype_cons]
    dsimp only
    by_cases hkeeps : env.Keeps current step.2
    · rw [if_pos (by simpa [Substrate.Keeps] using hkeeps), ih]
      exact ⟨fun h => ⟨⟨rfl, hkeeps, h.1⟩, h.2⟩, fun h => ⟨h.1.2.2, h.2⟩⟩
    · rw [if_neg (by simpa [Substrate.Keeps] using hkeeps), foldl_preserved_none]
      refine ⟨fun h => ?_, fun h => absurd h.1.2.1 hkeeps⟩
      cases h

/-- The search asks of the conversions of a recipe what derivation asks of its links. -/
theorem preservedType_eq_some (env : Substrate) {celltype output : Celltype} {edge : Edge} :
    preservedType env celltype edge = some output ↔
      env.KeepsThrough celltype ((recipeSteps edge [] (edge.sourceCelltype.getD celltype)).map
          fun step => (step.2, [])) ∧
        linksCelltype celltype ((recipeSteps edge [] (edge.sourceCelltype.getD celltype)).map
          fun step => (step.2, [])) = output := by
  rw [← foldl_preserved_eq_some]
  unfold preservedType recipeSteps
  split
  · rfl
  · rfl

/-- The links of an edge that reads a node as a whole, with the conversions in the order of its steps. -/
def wholeLinks (g : ContextGraph) (edge : Edge) (source : NodePath) : List Link :=
  (recipeSteps edge [] (sourceTypeOf g edge source [])).map fun step => (step.2, [])

theorem recipeSteps_whole (g : ContextGraph) (edge : Edge) (source : NodePath) :
    recipeSteps edge [] (edge.sourceCelltype.getD (g.nodeCelltype source)) =
      recipeSteps edge [] (sourceTypeOf g edge source []) := by
  unfold recipeSteps sourceTypeOf
  split
  · rename_i hbare
    simp only [Bool.and_eq_true] at hbare
    rw [if_neg (not_not.mpr rfl), if_pos hbare.1]
  · rfl

/-- The celltype in which the conversions of an edge end. -/
def outputCelltype (g : ContextGraph) (edge : Edge) (source : NodePath) : Celltype :=
  linksCelltype (g.nodeCelltype source) (g.wholeLinks edge source)

/-- The conversions of an edge keep the checksum of a node. -/
def PassesOut (env : Substrate) (g : ContextGraph) (edge : Edge) (source : NodePath) : Prop :=
  env.KeepsThrough (g.nodeCelltype source) (g.wholeLinks edge source)

instance : Decidable (g.PassesOut env edge source) := inferInstanceAs (Decidable (env.KeepsThrough _ _))

/-- The conversions of an edge keep the checksum, and one more into this celltype does. -/
def PassesInto (env : Substrate) (g : ContextGraph) (edge : Edge) (source : NodePath)
    (celltype : Celltype) : Prop :=
  g.PassesOut env edge source ∧ env.Keeps (g.outputCelltype edge source) celltype

instance : Decidable (g.PassesInto env edge source celltype) := inferInstanceAs (Decidable (_ ∧ _))

theorem preservedType_whole {output : Celltype} :
    preservedType env (g.nodeCelltype source) edge = some output ↔
      g.PassesOut env edge source ∧ g.outputCelltype edge source = output := by
  unfold PassesOut outputCelltype wholeLinks
  rw [← recipeSteps_whole]
  exact preservedType_eq_some env

theorem preservedType_lossy (h : ¬ g.PassesOut env edge source) :
    preservedType env (g.nodeCelltype source) edge = none := by
  cases hpreserved : preservedType env (g.nodeCelltype source) edge with
  | none => rfl
  | some output => exact absurd (preservedType_whole.mp hpreserved).1 h

/-! ## What the search makes of an edge -/

/-- An edge that reads a node as a whole, and its end. -/
structure ReadsWhole (g : ContextGraph) (edge : Edge) (source target : NodePath) (localPath : Path)
    (node : Node) : Prop where
  mem : edge ∈ g.edges
  reads : g.resolveExisting edge.source = some (source, [])
  resolves : g.resolveExisting edge.target = some (target, localPath)
  lookup : g.nodes.lookup target = some node

/-- The celltype that the search takes for that of an input. -/
def listedCelltype (config : TransformerConfig) : Component → Celltype
  | .key name => config.celltypeOf name
  | _ => .mixed

/-- The search follows an edge into a cell as a whole, when one more conversion into the celltype of the
cell keeps the checksum. -/
theorem ReadsWhole.holderStep_cell (h : g.ReadsWhole edge source target localPath node)
    {fields : CellFields} (hbody : node.body = .cell fields) : g.holderStep env edge =
      if localPath = [] ∧ g.PassesInto env edge source fields.config.celltype then
        if fields.config.scratch then .passes target else .holds target
      else .stops := by
  unfold holderStep
  rw [h.reads, h.resolves]
  dsimp only
  by_cases hpasses : g.PassesOut env edge source
  · rw [preservedType_whole.mpr ⟨hpasses, rfl⟩, h.lookup]
    dsimp only
    rw [hbody]
    dsimp only
    by_cases hinto : localPath = [] ∧ g.PassesInto env edge source fields.config.celltype
    · rw [if_pos hinto, if_neg]
      have hkeeps := hinto.2.2
      unfold Substrate.Keeps at hkeeps
      simpa [hinto.1, or_iff_not_imp_left] using hkeeps
    · rw [if_neg hinto, if_pos]
      unfold PassesInto Substrate.Keeps at hinto
      simp only [hpasses, true_and, not_and, not_or] at hinto
      simp only [ne_eq, decide_not, Bool.or_eq_true, Bool.not_eq_true', decide_eq_false_iff_not,
        Bool.or_eq_false_iff]
      by_cases hlocal : localPath = []
      · exact .inr ⟨hinto hlocal |>.1, by simpa using (hinto hlocal).2⟩
      · exact .inl hlocal
  · rw [preservedType_lossy hpasses, if_neg fun hinto => hpasses hinto.2.1]

/-- The search takes every input of a transformer for a pin, and has no answer to an edge that ends at the
transformer itself. -/
theorem ReadsWhole.holderStep_input (h : g.ReadsWhole edge source target localPath node)
    {fields : TransformerFields} (hbody : node.body = .transformer fields) : g.holderStep env edge =
      match localPath with
      | [] => if g.PassesOut env edge source then .raises else .stops
      | component :: _ =>
        if g.PassesInto env edge source (listedCelltype fields.config component) ∧
            edgeTargetScratch node = false then .holds target
        else .stops := by
  unfold holderStep
  rw [h.reads, h.resolves]
  dsimp only
  by_cases hpasses : g.PassesOut env edge source
  · rw [preservedType_whole.mpr ⟨hpasses, rfl⟩, h.lookup]
    dsimp only
    rw [hbody]
    dsimp only
    cases localPath with
    | nil => rw [if_pos hpasses]
    | cons component rest =>
      dsimp only
      refine if_congr ?_ rfl rfl
      unfold PassesInto Substrate.Keeps listedCelltype
      cases component <;>
        simp only [hpasses, true_and, Bool.and_eq_true, Bool.or_eq_true, decide_eq_true_eq,
          Bool.not_eq_true']
  · rw [preservedType_lossy hpasses]
    cases localPath with
    | nil => rw [if_neg hpasses]
    | cons component rest =>
      dsimp only
      rw [if_neg fun hinto => hpasses hinto.1.1]

/-! ## What derivation makes of an edge -/

/-- An edge that is recorded as handles record one: its conversions are in order, it names the celltype
that they end in, and a link that is looked through converts into the celltype at its end. -/
structure AsRecorded (g : ContextGraph) (edge : Edge) : Prop where
  records : edge.recipe.Records []
  inOrder : edge.sourceConversionSteps.Pairwise fun a b => a.1 ≤ b.1
  link : g.looksThrough edge = true →
    edge.sourceConversionSteps.map (fun step => some step.2) = [g.edgeTargetCelltype edge]

instance : Decidable (g.AsRecorded edge) :=
  decidable_of_iff (edge.recipe.Records [] ∧
    (edge.sourceConversionSteps.Pairwise fun a b => a.1 ≤ b.1) ∧ (g.looksThrough edge = true →
      edge.sourceConversionSteps.map (fun step => some step.2) = [g.edgeTargetCelltype edge]))
    ⟨fun h => ⟨h.1, h.2.1, h.2.2⟩, fun h => ⟨h.records, h.inOrder, h.link⟩⟩

theorem ownLink_of_not_looksThrough (h : g.looksThrough edge = false) : g.ownLink edge = edge := by
  unfold ownLink
  rw [h]
  rfl

theorem AsRecorded.steps_of_bare (h : g.AsRecorded edge) (hbare : edge.sourceConversion = false) :
    edge.sourceConversionSteps = [] := by
  have hrecords := h.records
  unfold EdgeRecipe.Records Edge.recipe at hrecords
  rw [hbare] at hrecords
  exact hrecords

theorem AsRecorded.wholeLinks (h : g.AsRecorded edge) (source : NodePath) :
    g.wholeLinks edge source = edge.sourceConversionSteps.map fun step => (step.2, []) := by
  have hrecords := h.records
  unfold EdgeRecipe.Records Edge.recipe at hrecords
  unfold ContextGraph.wholeLinks recipeSteps
  rw [if_neg]
  cases hconversion : edge.sourceConversion with
  | false => simp
  | true =>
    rw [hconversion] at hrecords
    simpa using hrecords.1

/-- A link that is looked through has one conversion, into the celltype at its end. -/
theorem AsRecorded.wholeLinks_link (h : g.AsRecorded edge) (hlink : g.looksThrough edge = true)
    (source : NodePath) : ∃ celltype, g.edgeTargetCelltype edge = some celltype ∧
      g.wholeLinks edge source = [(celltype, [])] := by
  have hsteps := h.link hlink
  rw [h.wholeLinks]
  cases hs : edge.sourceConversionSteps with
  | nil =>
    rw [hs] at hsteps
    cases hsteps
  | cons step rest =>
    rw [hs, List.map_cons] at hsteps
    obtain ⟨hhead, hrest⟩ := List.cons.inj hsteps
    rw [List.map_eq_nil_iff.mp hrest]
    exact ⟨step.2, hhead.symm, rfl⟩

theorem AsRecorded.handsOn (h : g.AsRecorded edge) (hlink : g.looksThrough edge = false)
    (hreads : g.resolveExisting edge.source = some (source, [])) :
    g.HandsOn env (g.ownLink edge) source ↔ g.PassesOut env edge source := by
  have hlinks : anonymousLinks (g.nodeCelltype source) []
      (recipeSteps edge [] (sourceTypeOf g edge source [])) = g.wholeLinks edge source := by
    have hsorted : sortedSteps (recipeSteps edge [] (sourceTypeOf g edge source [])) =
        recipeSteps edge [] (sourceTypeOf g edge source []) := by
      refine List.Pairwise.insertionSort_eq ?_
      unfold recipeSteps
      split
      · exact List.pairwise_singleton ..
      · exact h.inOrder
    rw [anonymousLinks_whole, hsorted]
    rfl
  rw [ownLink_of_not_looksThrough hlink]
  unfold PassesOut
  rw [← hlinks]
  exact ⟨fun hands => hands.keeps, fun hkeeps => ⟨hreads, hkeeps⟩⟩

/-- A link that is looked through is derived without its conversion. -/
theorem handsOn_link (hlink : g.looksThrough edge = true)
    (hreads : g.resolveExisting edge.source = some (source, [])) :
    g.HandsOn env (g.ownLink edge) source := by
  unfold ownLink
  rw [hlink, if_pos rfl]
  refine ⟨hreads, ?_⟩
  rw [anonymousLinks_whole]
  exact trivial

/-- The celltype from which the target reads is the one that the conversions end in. -/
theorem AsRecorded.edgeInputCelltype (h : g.AsRecorded edge)
    (hreads : g.resolveExisting edge.source = some (source, [])) :
    g.edgeInputCelltype edge = g.outputCelltype edge source := by
  have hrecords := h.records
  unfold EdgeRecipe.Records Edge.recipe at hrecords
  unfold ContextGraph.edgeInputCelltype outputCelltype
  rw [hreads, h.wholeLinks]
  dsimp only at hrecords ⊢
  cases hconversion : edge.sourceConversion with
  | false =>
    rw [h.steps_of_bare hconversion]
    cases edge.sourceCelltype <;> rfl
  | true =>
    rw [hconversion, if_pos rfl] at hrecords
    obtain ⟨hsteps, hcelltype⟩ := hrecords
    have hsorted : sortedSteps edge.sourceConversionSteps = edge.sourceConversionSteps :=
      List.Pairwise.insertionSort_eq h.inOrder
    rw [hcelltype, recipeCelltype_congr hsteps .mixed (g.nodeCelltype source),
      ← linksCelltype_anonymousLinks, anonymousLinks_whole, hsorted]
    rfl

/-- Derivation hands a checksum on to a cell when the conversions keep it, and one of them has been made
or the celltype of the cell keeps it. -/
theorem AsRecorded.hands_cell (hr : g.AsRecorded edge) (h : g.ReadsWhole edge source target [] node)
    {fields : CellFields} (hbody : node.body = .cell fields) :
    g.Hands env edge source target [] node ↔ g.PassesOut env edge source ∧
      ((g.ownLink edge).sourceConversion = true ∨
        env.Keeps (g.outputCelltype edge source) fields.config.celltype) := by
  have htarget : g.edgeTargetCelltype edge = some fields.config.celltype := by
    unfold edgeTargetCelltype
    rw [h.resolves]
    dsimp only
    rw [h.lookup, Option.map_some, hbody]
    rfl
  cases hlink : g.looksThrough edge with
  | true =>
    have hbare : (g.ownLink edge).sourceConversion = false := by
      unfold ownLink
      rw [hlink]
      rfl
    obtain ⟨celltype, hcelltype, hlinks⟩ := hr.wholeLinks_link hlink source
    obtain rfl := Option.some.inj (htarget.symm.trans hcelltype)
    unfold PassesOut outputCelltype
    rw [hlinks]
    constructor
    · rintro ⟨-, -, -, -, htakes⟩
      rw [hbody] at htakes
      cases htakes with
      | converted _ hconverted => cases hbare.symm.trans hconverted
      | cell _ hkeeps => exact ⟨⟨rfl, hkeeps, trivial⟩, .inr (.inl rfl)⟩
    · rintro ⟨⟨-, hkeeps, -⟩, -⟩
      refine ⟨h.mem, handsOn_link hlink h.reads, h.resolves, h.lookup, ?_⟩
      rw [hbody]
      exact .cell _ hkeeps
  | false =>
    have hown := ownLink_of_not_looksThrough hlink
    rw [← hr.handsOn hlink h.reads]
    have hbare : edge.sourceConversion = false →
        g.outputCelltype edge source = g.nodeCelltype source := by
      intro hbare
      unfold outputCelltype
      rw [hr.wholeLinks, hr.steps_of_bare hbare]
      rfl
    constructor
    · rintro ⟨-, hhands, -, -, htakes⟩
      rw [hbody] at htakes
      refine ⟨hhands, ?_⟩
      cases htakes with
      | converted _ hconverted => exact .inl hconverted
      | cell _ hkeeps =>
        cases hconversion : edge.sourceConversion with
        | true => exact .inl (by rw [hown, hconversion])
        | false => exact .inr (by rwa [hbare hconversion])
    · rintro ⟨hhands, htakes⟩
      refine ⟨h.mem, hhands, h.resolves, h.lookup, ?_⟩
      rw [hbody]
      cases hconversion : edge.sourceConversion with
      | true => exact .converted _ (by rw [hown, hconversion])
      | false =>
        rcases htakes with hconverted | hkeeps
        · exact .converted _ hconverted
        · exact .cell _ (by rwa [← hbare hconversion])

/-- Derivation hands a checksum on to the code of a transformer as it is. -/
theorem AsRecorded.hands_code (hr : g.AsRecorded edge)
    (h : g.ReadsWhole edge source target [.key "code"] node) {fields : TransformerFields}
    (hbody : node.body = .transformer fields) :
    g.Hands env edge source target [.key "code"] node ↔ g.PassesOut env edge source := by
  have hlink : g.looksThrough edge = false := by
    by_contra hlink
    obtain ⟨celltype, hcelltype, -⟩ := hr.wholeLinks_link (by simpa using hlink) source
    unfold edgeTargetCelltype at hcelltype
    rw [h.resolves] at hcelltype
    dsimp only at hcelltype
    rw [h.lookup, Option.map_some, hbody] at hcelltype
    cases hcelltype
  rw [← hr.handsOn hlink h.reads]
  refine ⟨fun hands => hands.handsOn, fun hhands => ⟨h.mem, hhands, h.resolves, h.lookup, ?_⟩⟩
  rw [hbody]
  exact .code _

/-- Derivation hands a checksum on to a declared pin when the celltype of the pin keeps it. -/
theorem AsRecorded.hands_pin (hr : g.AsRecorded edge) {name : String}
    (h : g.ReadsWhole edge source target [.key name] node) {fields : TransformerFields}
    (hbody : node.body = .transformer fields) (hname : name ≠ "code") :
    g.Hands env edge source target [.key name] node ↔
      name ∈ fields.config.pins ∧ g.PassesInto env edge source (fields.config.celltypeOf name) := by
  have hinput : ∀ localPath, localPath = [Component.key name] →
      (g.Takes env (g.ownLink edge) source node.body localPath ↔ name ∈ fields.config.pins ∧
        env.Keeps (g.edgeInputCelltype (g.ownLink edge)) (fields.config.celltypeOf name)) := by
    rintro localPath hlocal
    rw [hbody]
    constructor
    · intro htakes
      cases htakes with
      | pin _ _ declared hkeeps =>
        cases hlocal
        exact ⟨declared, hkeeps⟩
      | code => exact absurd (Component.key.inj (List.cons.inj hlocal).1).symm hname
    · rintro ⟨declared, hkeeps⟩
      rw [hlocal]
      exact .pin _ _ declared hkeeps
  have htakes := hinput _ rfl
  cases hlink : g.looksThrough edge with
  | true =>
    obtain ⟨celltype, hcelltype, hlinks⟩ := hr.wholeLinks_link hlink source
    have htarget : g.edgeTargetCelltype edge = some (fields.config.celltypeOf name) := by
      unfold edgeTargetCelltype
      rw [h.resolves]
      dsimp only
      rw [h.lookup, Option.map_some, hbody]
      exact if_neg hname
    obtain rfl := Option.some.inj (htarget.symm.trans hcelltype)
    have hread : g.edgeInputCelltype (g.ownLink edge) = g.nodeCelltype source := by
      unfold ownLink ContextGraph.edgeInputCelltype
      rw [hlink, if_pos rfl]
      dsimp only
      rw [h.reads]
      rfl
    unfold PassesInto PassesOut outputCelltype
    rw [hlinks]
    constructor
    · intro hands
      obtain ⟨declared, hkeeps⟩ := htakes.mp hands.takes
      rw [hread] at hkeeps
      exact ⟨declared, ⟨rfl, hkeeps, trivial⟩, .inl rfl⟩
    · rintro ⟨declared, ⟨-, hkeeps, -⟩, -⟩
      refine ⟨h.mem, handsOn_link hlink h.reads, h.resolves, h.lookup, htakes.mpr ⟨declared, ?_⟩⟩
      rwa [hread]
  | false =>
    rw [ownLink_of_not_looksThrough hlink, hr.edgeInputCelltype h.reads] at htakes
    have hhands := @AsRecorded.handsOn env g edge source hr hlink h.reads
    rw [ownLink_of_not_looksThrough hlink] at hhands
    constructor
    · rintro ⟨-, hon, -, -, ht⟩
      rw [ownLink_of_not_looksThrough hlink] at hon ht
      obtain ⟨declared, hkeeps⟩ := htakes.mp ht
      exact ⟨declared, hhands.mp hon, hkeeps⟩
    · rintro ⟨declared, hpasses, hkeeps⟩
      refine ⟨h.mem, ?_, h.resolves, h.lookup, ?_⟩
      · rw [ownLink_of_not_looksThrough hlink]
        exact hhands.mpr hpasses
      · rw [ownLink_of_not_looksThrough hlink]
        exact htakes.mpr ⟨declared, hkeeps⟩

/-! ## Edges that both judge alike -/

/-- Nothing tells the search and derivation apart at an edge: what is converted on its way into a cell has
a celltype that the celltype of the cell keeps, what goes into code has one that the celltype listed for
`code` keeps, any other input is a declared pin, and the edge does not end at a transformer itself. -/
def Regular (env : Substrate) (g : ContextGraph) (edge : Edge) (source : NodePath) (localPath : Path)
    (node : Node) : Prop :=
  g.PassesOut env edge source → match node.body, localPath with
    | .cell fields, [] => (g.ownLink edge).sourceConversion = true →
        env.Keeps (g.outputCelltype edge source) fields.config.celltype
    | .cell _, _ :: _ => True
    | .transformer _, [] => False
    | .transformer fields, component :: rest => edgeTargetScratch node = false →
        if component = .key "code" ∧ rest = [] then
          env.Keeps (g.outputCelltype edge source) (fields.config.celltypeOf "code")
        else env.Keeps (g.outputCelltype edge source) (listedCelltype fields.config component) →
          rest = [] ∧ ∃ name ∈ fields.config.pins, component = .key name

instance : Decidable (g.Regular env edge source localPath node) := by
  unfold Regular
  refine @instDecidableForall _ _ inferInstance ?_
  split <;> infer_instance

/-- From a node on, through scratch cells. -/
def Carries (env : Substrate) (g : ContextGraph) (a b : NodePath) : Prop :=
  g.WalkStep env (some a) (some b)

/-- Nothing tells the search and derivation apart at a node and at the scratch cells that take its checksum
over: every edge that reads one of them as a whole is recorded as handles record one, and regular. -/
def RegularFrom (env : Substrate) (g : ContextGraph) (path : NodePath) : Prop :=
  ∀ source, ReflTransGen (g.Carries env) path source → ∀ edge target localPath node,
    g.ReadsWhole edge source target localPath node →
      g.AsRecorded edge ∧ g.Regular env edge source localPath node

/-- What the search makes of an edge that both judge alike. -/
structure Judged (env : Substrate) (g : ContextGraph) (edge : Edge) (source target : NodePath)
    (localPath : Path) (node : Node) : Prop where
  answers : g.holderStep env edge ≠ .raises
  passes : ∀ next, g.holderStep env edge = .passes next ↔ next = target ∧
    g.Hands env edge source target localPath node ∧ node.isCell = true ∧ edgeTargetScratch node = true
  holds : (∃ next, g.holderStep env edge = .holds next) ↔
    g.Hands env edge source target localPath node ∧ edgeTargetScratch node = false

namespace Judged

theorem of_stops (hstep : g.holderStep env edge = .stops)
    (h : g.Hands env edge source target localPath node →
      node.isCell = false ∧ edgeTargetScratch node = true) :
    g.Judged env edge source target localPath node where
  answers := by rw [hstep]; exact nofun
  passes next := by
    rw [hstep]
    exact ⟨nofun, fun he => Bool.noConfusion ((h he.2.1).1.symm.trans he.2.2.1)⟩
  holds := by
    rw [hstep]
    exact ⟨(fun ⟨_, he⟩ => nomatch he), fun he => Bool.noConfusion ((h he.1).2.symm.trans he.2)⟩

theorem of_holds (hstep : g.holderStep env edge = .holds target)
    (hands : g.Hands env edge source target localPath node)
    (hscratch : edgeTargetScratch node = false) : g.Judged env edge source target localPath node where
  answers := by rw [hstep]; exact nofun
  passes next := by
    rw [hstep]
    exact ⟨nofun, fun he => Bool.noConfusion (hscratch.symm.trans he.2.2.2)⟩
  holds := ⟨fun _ => ⟨hands, hscratch⟩, fun _ => ⟨target, hstep⟩⟩

theorem of_passes (hstep : g.holderStep env edge = .passes target)
    (hands : g.Hands env edge source target localPath node) (hcell : node.isCell = true)
    (hscratch : edgeTargetScratch node = true) : g.Judged env edge source target localPath node where
  answers := by rw [hstep]; exact nofun
  passes next := by
    rw [hstep, HolderStep.passes.injEq]
    exact ⟨fun he => ⟨he.symm, hands, hcell, hscratch⟩, fun he => he.1.symm⟩
  holds := by
    rw [hstep]
    exact ⟨(fun ⟨_, he⟩ => nomatch he), fun he => Bool.noConfusion (hscratch.symm.trans he.2)⟩

end Judged

theorem judged_cell (hr : g.AsRecorded edge) (h : g.ReadsWhole edge source target localPath node)
    {fields : CellFields} (hbody : node.body = .cell fields)
    (hregular : g.Regular env edge source localPath node) :
    g.Judged env edge source target localPath node := by
  have hstep : g.holderStep env edge = _ := h.holderStep_cell hbody
  have hscratch : edgeTargetScratch node = fields.config.scratch := by
    unfold edgeTargetScratch
    rw [hbody]
  have hcell : node.isCell = true := by
    unfold Node.isCell
    rw [hbody]
  have hhands : g.Hands env edge source target localPath node ↔
      localPath = [] ∧ g.PassesInto env edge source fields.config.celltype := by
    constructor
    · intro hands
      have htakes := hands.takes
      rw [hbody] at htakes
      obtain rfl : localPath = [] := by cases htakes <;> rfl
      obtain ⟨hpasses, hkept⟩ := (hr.hands_cell h hbody).mp hands
      unfold Regular at hregular
      rw [hbody] at hregular
      exact ⟨rfl, hpasses, hkept.elim (hregular hpasses) id⟩
    · rintro ⟨rfl, hpasses, hkeeps⟩
      exact (hr.hands_cell h hbody).mpr ⟨hpasses, .inr hkeeps⟩
  by_cases hands : g.Hands env edge source target localPath node
  · rw [if_pos (hhands.mp hands)] at hstep
    cases hs : fields.config.scratch with
    | true =>
      rw [hs] at hstep hscratch
      exact .of_passes hstep hands hcell hscratch
    | false =>
      rw [hs] at hstep hscratch
      exact .of_holds hstep hands hscratch
  · rw [if_neg fun hinto => hands (hhands.mpr hinto)] at hstep
    exact .of_stops hstep fun hyes => absurd hyes hands

theorem judged_input (hr : g.AsRecorded edge) (h : g.ReadsWhole edge source target localPath node)
    {fields : TransformerFields} (hbody : node.body = .transformer fields)
    (hregular : g.Regular env edge source localPath node) :
    g.Judged env edge source target localPath node := by
  have hstep : g.holderStep env edge = _ := h.holderStep_input hbody
  have hcell : node.isCell = false := by
    unfold Node.isCell
    rw [hbody]
  unfold Regular at hregular
  rw [hbody] at hregular
  cases localPath with
  | nil =>
    have hlossy : ¬ g.PassesOut env edge source := hregular
    dsimp only at hstep
    rw [if_neg hlossy] at hstep
    refine .of_stops hstep fun hands => ?_
    have htakes := hands.takes
    rw [hbody] at htakes
    cases htakes
  | cons component rest =>
    dsimp only at hstep hregular
    cases hscratch : edgeTargetScratch node with
    | true =>
      rw [if_neg fun hinto => Bool.noConfusion (hscratch.symm.trans hinto.2)] at hstep
      exact .of_stops hstep fun _ => ⟨hcell, hscratch⟩
    | false =>
      have hhands : g.Hands env edge source target (component :: rest) node ↔
          g.PassesInto env edge source (listedCelltype fields.config component) := by
        by_cases hcode : component = .key "code" ∧ rest = []
        · obtain ⟨rfl, rfl⟩ := hcode
          rw [hr.hands_code h hbody]
          refine ⟨fun hpasses => ⟨hpasses, ?_⟩, fun hinto => hinto.1⟩
          have hkeeps := hregular hpasses hscratch
          rwa [if_pos ⟨rfl, rfl⟩] at hkeeps
        · have hpin : g.Hands env edge source target (component :: rest) node → ∃ name,
              component = .key name ∧ rest = [] := by
            intro hands
            have htakes := hands.takes
            rw [hbody] at htakes
            cases htakes with
            | pin _ name => exact ⟨name, rfl, rfl⟩
            | code => exact ⟨_, rfl, rfl⟩
          constructor
          · intro hands
            obtain ⟨name, rfl, rfl⟩ := hpin hands
            exact ((hr.hands_pin h hbody fun hname => hcode ⟨by rw [hname], rfl⟩).mp hands).2
          · intro hinto
            have hdeclared := hregular hinto.1 hscratch
            rw [if_neg hcode] at hdeclared
            obtain ⟨rfl, name, hname, rfl⟩ := hdeclared hinto.2
            exact (hr.hands_pin h hbody fun hn => hcode ⟨by rw [hn], rfl⟩).mpr ⟨hname, hinto⟩
      by_cases hands : g.Hands env edge source target (component :: rest) node
      · rw [if_pos ⟨hhands.mp hands, hscratch⟩] at hstep
        exact .of_holds hstep hands hscratch
      · rw [if_neg fun hinto => hands (hhands.mpr hinto.1)] at hstep
        exact .of_stops hstep fun hyes => absurd hyes hands

/-- The search judges a regular edge as derivation does. -/
theorem Regular.judged (hregular : g.Regular env edge source localPath node) (hr : g.AsRecorded edge)
    (h : g.ReadsWhole edge source target localPath node) :
    g.Judged env edge source target localPath node := by
  cases hbody : node.body with
  | cell fields => exact judged_cell hr h hbody hregular
  | transformer fields => exact judged_input hr h hbody hregular

/-- An edge that the search judges as derivation does is regular. -/
theorem Judged.regular (h : g.Judged env edge source target localPath node) (hr : g.AsRecorded edge)
    (hreads : g.ReadsWhole edge source target localPath node) :
    g.Regular env edge source localPath node := by
  -- what derivation hands on, the search has to follow
  have hfollows : g.Hands env edge source target localPath node →
      (node.isCell = false → edgeTargetScratch node = false) →
        g.holderStep env edge ≠ .stops := by
    intro hands hplain
    cases hscratch : edgeTargetScratch node with
    | false =>
      obtain ⟨next, hnext⟩ := h.holds.mpr ⟨hands, hscratch⟩
      rw [hnext]
      exact nofun
    | true =>
      have hcell : node.isCell = true := by
        by_contra hcell
        exact Bool.noConfusion (hscratch.symm.trans (hplain (by simpa using hcell)))
      rw [(h.passes target).mpr ⟨rfl, hands, hcell, hscratch⟩]
      exact nofun
  intro hpasses
  cases hbody : node.body with
  | cell fields =>
    cases localPath with
    | nil =>
      intro hconverted
      have hstep := hfollows ((hr.hands_cell hreads hbody).mpr ⟨hpasses, .inl hconverted⟩) fun hcell => by
        unfold Node.isCell at hcell
        rw [hbody] at hcell
        cases hcell
      rw [hreads.holderStep_cell hbody] at hstep
      by_contra hlossy
      exact hstep (if_neg fun hinto => hlossy hinto.2.2)
    | cons component rest => trivial
  | transformer fields =>
    have hstep : g.holderStep env edge = _ := hreads.holderStep_input hbody
    cases localPath with
    | nil =>
      dsimp only at hstep
      rw [if_pos hpasses] at hstep
      exact h.answers hstep
    | cons component rest =>
      dsimp only at hstep ⊢
      intro hscratch
      split
      · rename_i hcode
        obtain ⟨rfl, rfl⟩ := hcode
        by_contra hlossy
        refine hfollows ((hr.hands_code hreads hbody).mpr hpasses) (fun _ => hscratch) ?_
        rw [hstep, if_neg fun hinto => hlossy hinto.1.2]
      · rename_i hcode
        intro hkeeps
        rw [if_pos ⟨⟨hpasses, hkeeps⟩, hscratch⟩] at hstep
        obtain ⟨hands, -⟩ := h.holds.mp ⟨target, hstep⟩
        have htakes := hands.takes
        rw [hbody] at htakes
        cases htakes with
        | pin _ name declared => exact ⟨rfl, name, declared, rfl⟩
        | code => exact absurd ⟨rfl, rfl⟩ hcode

/-! ## Walks -/

/-- An edge at which the search does not stop reads a node as a whole. -/
theorem readsWhole_of_step (hmem : edge ∈ g.edges)
    (hsource : (g.resolveExisting edge.source).map Prod.fst = some source)
    (hstep : g.holderStep env edge ≠ .stops) :
    ∃ target localPath node, g.ReadsWhole edge source target localPath node := by
  unfold holderStep at hstep
  split at hstep
  · rename_i found target targetLocal hreads hresolves
    rw [hreads] at hsource
    obtain rfl := Option.some.inj hsource
    split at hstep
    · rename_i output node _ hlookup
      exact ⟨target, targetLocal, node, hmem, hreads, hresolves, hlookup⟩
    · exact absurd rfl hstep
  · exact absurd rfl hstep

theorem Hands.readsWhole (h : g.Hands env edge source target localPath node) :
    g.ReadsWhole edge source target localPath node := by
  refine ⟨h.mem, ?_, h.resolves, h.lookup⟩
  have hreads := h.handsOn.unprojected
  rwa [ownLink_source] at hreads

/-- A walk to an input that is not scratch passes through scratch cells first. -/
theorem feedsHolder_iff : g.FeedsHolder env path ↔
    ∃ last, ReflTransGen (g.Carries env) path last ∧ g.WalkStep env (some last) none := by
  constructor
  · intro h
    have hsplit : ∀ waypoint, ReflTransGen (g.WalkStep env) (some path) waypoint →
        (∀ node, waypoint = some node → ReflTransGen (g.Carries env) path node) ∧
        (waypoint = none → ∃ last, ReflTransGen (g.Carries env) path last ∧
          g.WalkStep env (some last) none) := by
      intro waypoint h
      induction h with
      | refl => exact ⟨fun node hnode => Option.some.inj hnode ▸ .refl, fun hnone => nomatch hnone⟩
      | @tail before after _ hstep ih =>
        cases before with
        | none => exact nomatch hstep
        | some source =>
          have hsource := ih.1 source rfl
          refine ⟨fun node hnode => ?_, fun hnone => ?_⟩
          · subst hnode
            exact hsource.tail hstep
          · subst hnone
            exact ⟨source, hsource, hstep⟩
    exact (hsplit none h).2 rfl
  · rintro ⟨last, hwalk, hlast⟩
    exact (hwalk.lift some fun _ _ h => h).tail hlast

section Regular

variable (h : g.RegularFrom env path) {last : NodePath}

include h

/-- The search goes on from a node as a walk does. -/
theorem passesOn_iff (hlast : ReflTransGen (g.Carries env) path last) {next : NodePath} :
    g.PassesOn env last next ↔ g.Carries env last next := by
  constructor
  · rintro ⟨edge, hmem, hsource, hstep⟩
    obtain ⟨target, localPath, node, hreads⟩ :=
      readsWhole_of_step hmem hsource (by rw [hstep]; exact nofun)
    obtain ⟨hr, hregular⟩ := h last hlast edge target localPath node hreads
    obtain ⟨rfl, hands, hcell, hscratch⟩ := ((hregular.judged hr hreads).passes next).mp hstep
    exact .through hands hcell hscratch
  · intro hstep
    cases hstep with
    | @through edge _ _ localPath node hands hcell hscratch =>
      obtain ⟨hr, hregular⟩ := h last hlast edge next localPath node hands.readsWhole
      refine ⟨edge, hands.mem, ?_, ?_⟩
      · rw [hands.readsWhole.reads]
        rfl
      · exact ((hregular.judged hr hands.readsWhole).passes next).mpr ⟨rfl, hands, hcell, hscratch⟩

/-- The search finds a holder at a node as a walk ends there. -/
theorem finds_iff (hlast : ReflTransGen (g.Carries env) path last) :
    (∃ holder, g.Finds env last (.holds holder)) ↔ g.WalkStep env (some last) none := by
  constructor
  · rintro ⟨holder, edge, hmem, hsource, hstep⟩
    obtain ⟨target, localPath, node, hreads⟩ :=
      readsWhole_of_step hmem hsource (by rw [hstep]; exact nofun)
    obtain ⟨hr, hregular⟩ := h last hlast edge target localPath node hreads
    obtain ⟨hands, hscratch⟩ := (hregular.judged hr hreads).holds.mp ⟨holder, hstep⟩
    exact .held hands hscratch
  · intro hstep
    cases hstep with
    | @held edge _ target localPath node hands hscratch =>
      obtain ⟨hr, hregular⟩ := h last hlast edge target localPath node hands.readsWhole
      obtain ⟨holder, hholds⟩ := (hregular.judged hr hands.readsWhole).holds.mpr ⟨hands, hscratch⟩
      refine ⟨holder, edge, hands.mem, ?_, hholds⟩
      rw [hands.readsWhole.reads]
      rfl

theorem not_finds_raises (hlast : ReflTransGen (g.Carries env) path last) :
    ¬ g.Finds env last .raises := by
  rintro ⟨edge, hmem, hsource, hstep⟩
  obtain ⟨target, localPath, node, hreads⟩ :=
    readsWhole_of_step hmem hsource (by rw [hstep]; exact nofun)
  obtain ⟨hr, hregular⟩ := h last hlast edge target localPath node hreads
  exact (hregular.judged hr hreads).answers hstep

/-- The search comes to the nodes to which walks lead. -/
theorem passesOn_reaches :
    ReflTransGen (g.PassesOn env) path last ↔ ReflTransGen (g.Carries env) path last := by
  constructor
  · intro hwalk
    induction hwalk with
    | refl => exact .refl
    | tail _ hstep ih => exact ih.tail ((passesOn_iff h ih).mp hstep)
  · intro hwalk
    induction hwalk with
    | refl => exact .refl
    | tail hbefore hstep ih => exact ih.tail ((passesOn_iff h hbefore).mpr hstep)

end Regular

end ContextGraph

/-! ## Exactness -/

/-- What derivation makes of the checksum that an edge hands over: the checksum of a cell, the code of
a transformer, or, in its canonical form, the checksum of a pin. -/
structure TakesOver (env : Substrate) (v : View) (edge : Edge) (c : Checksum) (target : NodePath)
    (localPath : Path) (node : Node) : Prop where
  cell : ∀ fields, node.body = .cell fields → ∀ senseErrors,
    (cellOutcome env v senseErrors target fields).value.state = .complete →
      (cellOutcome env v senseErrors target fields).value.checksum = some c
  code : ∀ fields, node.body = .transformer fields → localPath = [.key "code"] → ∀ code,
    (codeReading env v fields (v.graph.incomingFor target)).value = .inr code → code = c
  pin : ∀ fields name, node.body = .transformer fields → localPath = [.key name] → name ≠ "code" →
    (pinReading env v fields (v.graph.incomingFor target) name).value.state.state = .complete →
      (pinReading env v fields (v.graph.incomingFor target) name).value.state.checksum =
        some (env.canonicalize c (v.graph.edgeInputCelltype edge))

theorem ContextGraph.Hands.takesOver {env : Substrate} {v : View} {edge : Edge}
    {source target : NodePath} {localPath : Path} {node sourceNode : Node} {c : Checksum}
    (h : v.graph.Hands env edge source target localPath node) (hv : env.KeepsChecksums v)
    (hin : (v.graph.incomingFor target).lookup localPath = some (v.graph.ownLink edge))
    (hn : v.graph.nodes.lookup source = some sourceNode) (hc : sourceNode.currentChecksum = some c) :
    TakesOver env v (v.graph.ownLink edge) c target localPath node := by
  have htakes := h.takes
  refine ⟨fun fields hbody senseErrors hs => ?_, fun fields hbody hcode code hread => ?_,
    fun fields name hbody hpin hname hs => ?_⟩
  · rw [hbody] at htakes
    obtain rfl : localPath = [] := by cases htakes <;> rfl
    exact cellOutcome_keeps hv h.handsOn hn hc htakes hin senseErrors hs
  · subst hcode
    exact codeReading_keeps hv h.handsOn hn hc hin hread
  · subst hpin
    rw [hbody] at htakes
    refine pinReading_keeps hv h.handsOn hn hc hin ?_ hs
    cases htakes with
    | pin _ _ _ hkeeps => exact hkeeps
    | code => exact absurd rfl hname

/-- The search for a holder is exact at a node: it answers, and finds a holder exactly when a walk of the
derivation leads to an input that is not scratch, what is handed over on a walk is that very checksum, and the pins and
the code of a transformer hold what edges deliver to them as the transformer holds its inputs. -/
structure ContextGraph.PropagatesScratch (env : Substrate) (g : ContextGraph) (path : NodePath) :
    Prop where
  answers : g.feedsNonScratchHolder env path ≠ none
  exact : g.feedsNonScratchHolder env path = some true ↔ g.FeedsHolder env path
  takesOver : ∀ (v : View) (edge : Edge) (source target : NodePath) (localPath : Path)
    (node sourceNode : Node) (c : Checksum), v.graph = g →
      g.Hands env edge source target localPath node → env.KeepsChecksums v →
      (g.incomingFor target).lookup localPath = some (g.ownLink edge) →
      g.nodes.lookup source = some sourceNode → sourceNode.currentChecksum = some c →
        TakesOver env v (g.ownLink edge) c target localPath node
  heldCode : ∀ (ctx : Ctx) (target : NodePath) (node : Node) (fields : TransformerFields)
    (c : Checksum), ctx.graph = g → g.nodes.lookup target = some node →
      node.transformerFields = some fields → ctx.edgeCodeStates.lookup target = some c →
        ctx.wantedEdgePins.lookup (target, "code") = some (c, edgeTargetScratch node)
  heldPin : ∀ (ctx : Ctx) (target : NodePath) (node : Node) (fields : TransformerFields)
    (pin : String) (state : PinState) (c : Checksum), ctx.graph = g →
      g.nodes.lookup target = some node → node.transformerFields = some fields →
      fields.pinStates.lookup pin = some state → state.state = .complete →
      state.checksum = some c → (g.incomingEdge target [.key pin]).isSome = true → pin ≠ "code" →
        ctx.wantedEdgePins.lookup (target, pin) = some (c, edgeTargetScratch node)

/-- The result of a scratch transformer is kept by a cell, through a scratch cell. -/
def keptThrough : List Event :=
  [.turn (.assign [.key "make"] (.config
      { codeChecksum := some ⟨5⟩, celltypes := [("result", .text)], scratch := true })) 0 [],
    .turn (.assign [.key "through"] (.cell
      { recipe := { celltype := .text, scratch := true }
        input := .endpoint { nodePath := [.key "make"], kind := .transformerResult } })) 0 [],
    .turn (.assign [.key "kept"]
      (.endpoint { nodePath := [.key "through"], kind := .cellResult })) 0 []]

theorem keptThrough_runs : (System.run .fixed keptThrough {}).isSome = true := by decide +kernel

/-- A scratch transformer makes the code of another one, in Python. -/
def scratchCode : List Event :=
  [.turn (.assign [.key "make"] (.config
      { codeChecksum := some ⟨5⟩, celltypes := [("result", .python)], scratch := true })) 0 [],
    .turn (.assign [.key "run"] (.config { codeChecksum := some ⟨6⟩ })) 0 [],
    .turn (.setTransformerCode [.key "run"]
      (.endpoint { nodePath := [.key "make"], kind := .transformerResult })) 0 [],
    .finished ⟨[.key "make"], 1, ⟨⟨5⟩, [], ""⟩, 0⟩ ⟨20⟩ (.ok ⟨7⟩) 1]

theorem scratchCode_runs : (System.run .fixed scratchCode {}).isSome = true := by decide +kernel

end SeamlessWorkflow
