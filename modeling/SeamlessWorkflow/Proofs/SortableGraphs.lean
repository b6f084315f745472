import SeamlessWorkflow.Proofs.BlockReasons
import SeamlessWorkflow.Proofs.DescribedEdges

/-!
# Graphs that can be put in order

The description of a graph is sorted, and so are the keys of the block reasons in it. Both come from the
paths of the nodes and of the end points of the edges: whatever these can be put in order, the reasons can.
-/

namespace SeamlessWorkflow

open Program Relation Wiring

/-! ## Comparable paths -/

theorem boundsComparable_comm (as bs : List (Option Int)) :
    boundsComparable as bs = boundsComparable bs as := by
  induction as generalizing bs with
  | nil => cases bs <;> rfl
  | cons a as ih =>
    cases bs with
    | nil => rfl
    | cons b bs =>
      by_cases h : a = b
      · rw [boundsComparable, boundsComparable, if_pos h, if_pos h.symm, ih]
      · rw [boundsComparable, boundsComparable, if_neg h, if_neg (Ne.symm h), Bool.and_comm]

theorem Component.comparable_comm (k l : Component) : k.comparable l = l.comparable k := by
  cases k <;> cases l <;> first | rfl | exact boundsComparable_comm _ _

theorem Component.comparable_self {k : Component} (h : k.isSlice = false) : k.comparable k = true := by
  cases k with
  | key name => rfl
  | index i => rfl
  | slice start stop step => cases h

theorem Path.comparable_comm (p q : Path) : p.comparable q = q.comparable p := by
  induction p generalizing q with
  | nil => cases q <;> rfl
  | cons k p ih =>
    cases q with
    | nil => rfl
    | cons l q =>
      by_cases h : k = l
      · rw [Path.comparable, Path.comparable, if_pos h, if_pos h.symm, ih]
      · rw [Path.comparable, Path.comparable, if_neg h, if_neg (Ne.symm h), k.comparable_comm]

/-- Paths compare by the components behind a common path. -/
theorem comparable_of_prefixes {p a b : Path} {k l : Component} (ha : p ++ [k] <+: a)
    (hb : p ++ [l] <+: b) (h : Path.comparable a b = true) (hne : k ≠ l) : k.comparable l = true := by
  induction p generalizing a b with
  | nil =>
    obtain ⟨a, rfl⟩ := ha
    obtain ⟨b, rfl⟩ := hb
    rwa [List.nil_append, List.nil_append, List.singleton_append, List.singleton_append,
      Path.comparable, if_neg hne] at h
  | cons m p ih =>
    obtain ⟨a, rfl⟩ := ha
    obtain ⟨b, rfl⟩ := hb
    rw [List.cons_append, List.cons_append, List.cons_append, List.cons_append, Path.comparable,
      if_pos rfl] at h
    exact ih (List.prefix_append ..) (List.prefix_append ..) h

/-- Is a path made of names? -/
def Path.named (path : Path) : Bool :=
  path.all fun k =>
    match k with
    | .key _ => true
    | _ => false

theorem Path.named_cons {k : Component} {path : Path} (h : Path.named (k :: path) = true) :
    (∃ name, k = .key name) ∧ path.named = true := by
  cases k with
  | key name => exact ⟨⟨name, rfl⟩, h⟩
  | _ => cases h

theorem Path.plain_of_named {path : Path} (h : path.named = true) : path.plain = true := by
  induction path with
  | nil => rfl
  | cons k path ih =>
    obtain ⟨⟨name, rfl⟩, hrest⟩ := Path.named_cons h
    exact ih hrest

theorem Path.comparable_of_named {p q : Path} (hp : p.named = true) (hq : q.named = true) :
    p.comparable q = true := by
  induction p generalizing q with
  | nil => cases q <;> rfl
  | cons k p ih =>
    cases q with
    | nil => rfl
    | cons l q =>
      obtain ⟨⟨name, rfl⟩, hp⟩ := Path.named_cons hp
      obtain ⟨⟨other, rfl⟩, hq⟩ := Path.named_cons hq
      rw [Path.comparable]
      split
      · exact ih hp hq
      · rfl

/-! ## Sortable graphs -/

/-- The paths of nodes, of sources and of targets can be put in order, and there is no slice in a
target. -/
structure Sortable (nodes : NodePath → Prop) (wires : Place → Place → EdgeRecipe → Prop) : Prop where
  nodes : ∀ p, nodes p → ∀ q, nodes q → p.comparable q = true
  edges : ∀ source target recipe, wires source target recipe → ∀ source' target' recipe',
    wires source' target' recipe' →
      source.flat.comparable source'.flat = true ∧ target.flat.comparable target'.flat = true
  targets : ∀ source target recipe, wires source target recipe → target.flat.plain = true

def ContextGraph.Sortable (g : ContextGraph) : Prop :=
  SeamlessWorkflow.Sortable (· ∈ g.nodes) g.HasWire

theorem Within.sortable {nodes : NodePath → Prop} {wires : Place → Place → EdgeRecipe → Prop} {ctx : Ctx}
    (hw : Within nodes wires ctx) (hs : Sortable nodes wires) : ctx.graph.Sortable := by
  have hwires : ∀ source target recipe, ctx.graph.HasWire source target recipe →
      wires source target recipe := by
    rintro _ _ _ ⟨edge, hedge, rfl, rfl, rfl⟩
    exact hw.wires edge hedge
  exact ⟨fun p hp q hq => hs.nodes p (hw.nodes p hp) q (hw.nodes q hq),
    fun s t r h s' t' r' h' => hs.edges s t r (hwires s t r h) s' t' r' (hwires s' t' r' h'),
    fun s t r h => hs.targets s t r (hwires s t r h)⟩

namespace ContextGraph.Sortable

variable {g : ContextGraph}

theorem target_plain (h : g.Sortable) {edge : Edge} (hedge : edge ∈ g.edges) : edge.target.plain = true := by
  rw [edge.targetFlat]
  exact h.targets _ _ _ ⟨edge, hedge, rfl, rfl, rfl⟩

theorem target_comparable (h : g.Sortable) {a b : Edge} (ha : a ∈ g.edges) (hb : b ∈ g.edges) :
    a.target.comparable b.target = true := by
  rw [a.targetFlat, b.targetFlat]
  exact (h.edges _ _ _ ⟨a, ha, rfl, rfl, rfl⟩ _ _ _ ⟨b, hb, rfl, rfl, rfl⟩).2

theorem edge_comparable (h : g.Sortable) {a b : Edge} (ha : a ∈ g.edges) (hb : b ∈ g.edges) :
    a.comparable b = true := by
  unfold Edge.comparable
  split
  · exact h.target_comparable ha hb
  · rw [a.sourceFlat, b.sourceFlat]
    exact (h.edges _ _ _ ⟨a, ha, rfl, rfl, rfl⟩ _ _ _ ⟨b, hb, rfl, rfl, rfl⟩).1

/-- A reason that names slots of edges has keys that can be put in order. -/
theorem plain_reason (h : g.Sortable) {path : NodePath} {reason : BlockReason}
    (hr : reason.Names g.edges path) : reason.plain = true := by
  cases reason with
  | one reason => rfl
  | slots reasons =>
    have hplain : ∀ entry ∈ reasons, entry.1.isSlice = false := fun entry hentry => by
      obtain ⟨edge, hedge, hslot⟩ := hr entry hentry
      have htarget := h.target_plain hedge
      obtain ⟨rest, hrest⟩ := hslot
      rw [← hrest, Path.plain_append, Path.plain_append] at htarget
      unfold Path.plain at htarget
      simpa using htarget.1.2
    unfold BlockReason.plain
    simp only [Bool.and_eq_true, List.all_eq_true, Bool.not_eq_true']
    refine ⟨hplain, fun a ha b hb => ?_⟩
    obtain ⟨edge, hedge, hslot⟩ := hr a ha
    obtain ⟨other, hother, hslot'⟩ := hr b hb
    by_cases hne : a.1 = b.1
    · rw [← hne]
      exact Component.comparable_self (hplain a ha)
    · exact comparable_of_prefixes hslot hslot' (h.target_comparable hedge hother) hne

end ContextGraph.Sortable

/-! ## Block reasons -/

/-- The block reasons that a Context shows can be written. -/
def Ctx.ReasonsPlain (ctx : Ctx) : Prop :=
  ∀ path, ∀ reason ∈ ctx.reasonAt path, reason.plain = true

theorem KeepsReasons.plain {ctx ctx' : Ctx} (h : KeepsReasons ctx ctx') (hp : ctx.ReasonsPlain) :
    ctx'.ReasonsPlain := fun path reason hreason => by
  obtain ⟨q, hq⟩ := h path reason hreason
  exact hp q reason hq

theorem ShowsReasons.plain {ctx ctx' : Ctx} (h : ShowsReasons ctx.graph.edges ctx ctx')
    (hs : ctx.graph.Sortable) (hp : ctx.ReasonsPlain) : ctx'.ReasonsPlain :=
  fun path reason hreason => (h path reason hreason).elim (hp path reason) hs.plain_reason

section Moves

variable {env : Substrate} {lim : Limits} {ctx ctx' : Ctx}

/-- The nodes of the graphs that may be loaded are not blocked. -/
def Limits.LoadsUnblocked (lim : Limits) : Prop :=
  ∀ g, lim.loads g → ∀ path, ∀ node ∈ g.nodes.lookup path, node.blockReason = none

theorem Move.reasonsPlain (h : Move env lim ctx ctx') (hs : ctx.graph.Sortable)
    (hcopies : ∀ s t, lim.copies ctx s t → (finalState (copySubcontext env s t ctx)).ReasonsPlain)
    (hloads : lim.LoadsUnblocked) (hp : ctx.ReasonsPlain) : ctx'.ReasonsPlain := by
  have hbegun : ctx.beginDerivation.graph.Sortable := by rwa [graph_beginDerivation]
  have hbegunPlain : ctx.beginDerivation.ReasonsPlain := fun path reason hreason => by
    refine hp path reason ?_
    unfold Ctx.reasonAt at hreason ⊢
    rwa [node?_of_graph (graph_beginDerivation ctx)] at hreason
  cases h with
  | quiet h => exact h.reasons.plain hp
  | edit h => exact h.reasons.plain hp
  | derive hsort hr => exact (showsReasons_deriveGraph _ _).plain hbegun hbegunPlain
  | raise hr => exact (showsReasons_graphRaises hr).plain hbegun hbegunPlain
  | drop keep h => exact h.reasons.plain hp
  | recast hn ht h => exact h.reasons.plain hp
  | connect hg hr h => exact h.reasons.plain hp
  | create hc hcreates h => exact h.reasons.plain hp
  | remove path hr h => exact h.reasons.plain hp
  | retype hn ht h => exact h.reasons.plain hp
  | copy hc => exact hcopies _ _ hc
  | load hl h hkind hreasons =>
    intro path reason hreason
    rw [hreasons] at hreason
    obtain ⟨node, hnode, hshown⟩ := Option.bind_eq_some_iff.mp hreason
    rw [hloads _ hl path node hnode] at hshown
    cases hshown
  | deliver hd =>
    refine KeepsReasons.plain (fun path reason hreason => ⟨path, ?_⟩) hp
    unfold Ctx.reasonAt at hreason ⊢
    rwa [node?_of_graph (graph_updateRun _ _ _ ctx)] at hreason

/-- Moves keep the block reasons plain, if they go through graphs that can be put in order only. -/
theorem Moves.reasonsPlain {start : Ctx} (h : Moves env lim start ctx)
    (hs : ∀ mid, Moves env lim start mid → mid.graph.Sortable)
    (hcopies : ∀ mid s t, Moves env lim start mid → lim.copies mid s t → mid.ReasonsPlain →
      (finalState (copySubcontext env s t mid)).ReasonsPlain)
    (hloads : lim.LoadsUnblocked) (hp : start.ReasonsPlain) : ctx.ReasonsPlain := by
  induction h with
  | refl => exact hp
  | tail hm hmove ih =>
    exact hmove.reasonsPlain (hs _ hm) (fun s t hc => hcopies _ s t hm hc ih) hloads ih

/-- A message about a run keeps the block reasons plain. -/
theorem message_reasonsPlain {delivers : NodePath → Nat → (RunRecord → RunRecord) → Prop}
    (h : Moves env (.message delivers) ctx ctx') (hs : ctx.graph.Sortable) (hp : ctx.ReasonsPlain) :
    ctx'.ReasonsPlain :=
  h.reasonsPlain (fun _ hm => ((within_start _).message hm).sortable hs) (fun _ _ _ _ => False.elim)
    (fun _ => False.elim) hp

/-- A namespace copy keeps the block reasons plain. -/
theorem reasonsPlain_copy {s t : NodePath}
    (hs : ∀ mid, Rewires ctx mid ctx.outline ctx.graph.edges ∨ Copying s t ctx mid →
      mid.graph.Sortable) (hp : ctx.ReasonsPlain) :
    (finalState (copySubcontext env s t ctx)).ReasonsPlain := by
  obtain ⟨mid, hmid, hmoves⟩ := copySubcontext_cases env (.message fun _ _ _ => False) s t ctx
  refine message_reasonsPlain hmoves (hs mid hmid) (KeepsReasons.plain ?_ hp)
  rcases hmid with h | h
  · exact h.reasons
  · exact h.rewires.reasons

end Moves

end SeamlessWorkflow
