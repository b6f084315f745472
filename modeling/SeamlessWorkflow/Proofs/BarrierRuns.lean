import SeamlessWorkflow.Context.Barriers
import SeamlessWorkflow.Proofs.SourcedGraphs
import SeamlessWorkflow.Proofs.WiringResults
import SeamlessWorkflow.Library.Transition

/-!
# Barriers in every run

A barrier is completed in a state in which nothing upstream of its node is under way. It does not stay
pending without its node, nor beyond the end of its Context.
-/

namespace SeamlessWorkflow

open Program Relation

/-! ## One wait -/

namespace ContextGraph

variable {g : ContextGraph} {path : NodePath}

/-- A node that is there, and neither waiting nor computing. -/
def Rests (g : ContextGraph) (path : NodePath) : Prop :=
  ∃ node, g.nodes.lookup path = some node ∧ node.state ≠ .waiting ∧ node.state ≠ .computing

theorem mem_upstreamCone {source : NodePath} :
    source ∈ g.upstreamCone path ↔ TransGen g.Feeds source path ∧ source ≠ path := by
  have hedge : ∀ a b, Reach.Edge ((g.edges.filterMap g.edgeNodes).map Prod.swap) a b ↔
      Function.swap g.Feeds a b := by
    intro a b
    constructor
    · intro h
      obtain ⟨⟨s, t⟩, hmem, heq⟩ := List.mem_map.mp h
      obtain ⟨rfl, rfl⟩ := Prod.mk.injEq .. |>.mp heq
      exact List.mem_filterMap.mp hmem
    · intro h
      exact List.mem_map.mpr ⟨(b, a), List.mem_filterMap.mpr h, rfl⟩
  have hrel : Reach.Edge ((g.edges.filterMap g.edgeNodes).map Prod.swap) = Function.swap g.Feeds :=
    funext fun a => funext fun b => propext (hedge a b)
  unfold upstreamCone
  rw [List.mem_filter, Reach.mem_reached, hrel, transGen_swap, decide_eq_true_iff]

theorem mem_of_feeds {source target : NodePath} (h : g.Feeds source target) : source ∈ g.nodes := by
  obtain ⟨edge, -, hnodes⟩ := h
  obtain ⟨⟨l, hsource⟩, -⟩ := edgeNodes_eq_some.mp hnodes
  exact mem_of_resolves (resolveExisting_eq_some.mp hsource)

theorem rests_of_not_pending (hin : path ∈ g.nodes) (h : g.isPending path = false) :
    g.Rests path := by
  obtain ⟨node, hnode⟩ := Option.isSome_iff_exists.mp (AList.lookup_isSome.mpr hin)
  unfold isPending at h
  rw [hnode, Option.any_some] at h
  refine ⟨node, hnode, fun hstate => ?_, fun hstate => ?_⟩
  · rw [hstate] at h
    exact Bool.noConfusion h
  · rw [hstate] at h
    exact Bool.noConfusion h

/-- A barrier that passes: the node and what is upstream of it rests. -/
theorem rests_upstream (hin : path ∈ g.nodes)
    (h : (path :: g.upstreamCone path).any g.isPending = false) {source : NodePath}
    (hreach : ReflTransGen g.Feeds source path) : g.Rests source := by
  have hmem : source ∈ g.nodes := by
    rcases ReflTransGen.cases_head hreach with rfl | ⟨next, hfeeds, -⟩
    · exact hin
    · exact mem_of_feeds hfeeds
  have hcone : source ∈ path :: g.upstreamCone path := by
    by_cases hsame : source = path
    · rw [hsame]
      exact List.mem_cons_self ..
    · refine List.mem_cons_of_mem _ (mem_upstreamCone.mpr ⟨?_, hsame⟩)
      rcases reflTransGen_iff_eq_or_transGen.mp hreach with heq | htrans
      · exact absurd heq.symm hsame
      · exact htrans
  rw [List.any_eq_false] at h
  exact rests_of_not_pending hmem (by simpa using h source hcone)

/-- What a read may give instead of a lease: nothing, when there is nothing to wait for. A failed node
has an exception, unless it is a transformer whose replacement by a bound source has been refused. -/
def ReadsNothing (node : Node) (returnNoneOnIncomplete : Bool) : Prop :=
  node.state.isIncomplete = true ∧
    (returnNoneOnIncomplete = true ∨ node.state = .failed ∧ node.exception = none)

/-- What the result of a barrier promises. -/
def Passes (g : ContextGraph) (path : NodePath) (read returnNoneOnIncomplete : Bool)
    (value : WaitResult) : Prop :=
  (∀ source, ReflTransGen g.Feeds source path → g.Rests source) ∧
    (read = true → ∃ node, g.nodes.lookup path = some node ∧
      (value = .lease node.currentChecksum node.celltype ∨
        value = .nothing ∧ ReadsNothing node returnNoneOnIncomplete))

theorem checkIncomplete_ok {node : Node} {noneOnIncomplete : Bool} {value : WaitResult}
    (hstate : node.state.isIncomplete = true)
    (h : g.checkIncomplete path node noneOnIncomplete = .resolves (.ok value)) :
    value = .nothing ∧ ReadsNothing node noneOnIncomplete := by
  unfold checkIncomplete at h
  split at h
  · rename_i hnone
    cases h
    exact ⟨rfl, hstate, Or.inl hnone⟩
  · split at h
    · cases h
    · split at h
      · rename_i hfailed
        cases hexception : node.exception with
        | none =>
          rw [hexception] at h
          cases h
          exact ⟨rfl, hstate, Or.inr ⟨hfailed, hexception⟩⟩
        | some e =>
          rw [hexception] at h
          cases h
      · cases h

/-- A barrier on a node that gives a result. -/
theorem checkWait_ok {synced read noneOnIncomplete : Bool} {value : WaitResult}
    (h : g.checkWait synced (.node path read true noneOnIncomplete) = .resolves (.ok value)) :
    g.Passes path read noneOnIncomplete value := by
  unfold checkWait at h
  dsimp only at h
  cases hnode : g.nodes.lookup path with
  | none =>
    rw [hnode] at h
    cases h
  | some node =>
    rw [hnode] at h
    dsimp only at h
    have hin : path ∈ g.nodes := AList.lookup_isSome.mp (by rw [hnode]; rfl)
    split at h
    · cases h
    · rename_i hpass
      rw [Bool.true_and, Bool.not_eq_true] at hpass
      refine ⟨fun source => rests_upstream hin hpass, fun hread => ⟨node, hnode, ?_⟩⟩
      subst hread
      split at h
      · rename_i hincomplete
        exact Or.inr (checkIncomplete_ok (by simpa using hincomplete) h)
      · split at h
        · split at h
          · cases h
          · cases h
            exact Or.inl rfl
        · rename_i hnot
          exact absurd rfl hnot

/-- A barrier on the whole Context that gives a result. -/
theorem checkWait_whole {synced : Bool} {value : WaitResult}
    (h : g.checkWait synced (.whole true) = .resolves (.ok value)) (hin : path ∈ g.nodes) :
    g.Rests path := by
  unfold checkWait at h
  dsimp only at h
  split at h
  · cases h
  · rename_i hpass
    rw [Bool.true_and, Bool.not_eq_true, List.any_eq_false] at hpass
    exact rests_of_not_pending hin (by simpa using hpass path hin)

/-- With the sources in place the text of an error can be made. -/
theorem Sourced.nodeErrorDetail (hs : g.Sourced) (node : Node) :
    g.nodeErrorDetail path node ≠ none := by
  unfold ContextGraph.nodeErrorDetail
  cases node.body with
  | cell fields => exact Option.some_ne_none _
  | transformer fields =>
    dsimp only
    split
    · split <;> exact Option.some_ne_none _
    · split
      · exact Option.some_ne_none _
      · split
        · exact Option.some_ne_none _
        · rename_i pin _ _ edge hlookup
          obtain ⟨before, after, hsplit, -⟩ := List.lookup_eq_some_iff.mp hlookup
          have hmem : (([.key pin] : Path), edge) ∈ g.incomingFor path := by
            rw [hsplit]
            exact List.mem_append_right _ (List.mem_cons_self ..)
          obtain ⟨old, hold, hown, -⟩ := mem_incomingFor hmem
          have hsource : edge.source = old.source := by
            rw [show edge = g.ownLink old from hown, ownLink_source]
          obtain ⟨r, hr⟩ := Option.isSome_iff_exists.mp (hs old hold)
          rw [hsource, hr, Option.map_some]
          exact Option.some_ne_none _
    · exact Option.some_ne_none _

/-- A check does not raise. -/
theorem Sourced.checkWait (hs : g.Sourced) (synced : Bool) (wait : Wait) :
    g.checkWait synced wait ≠ .raises := by
  intro h
  unfold ContextGraph.checkWait at h
  split at h
  · split at h <;> cases h
  · split at h <;> cases h
  · split at h
    · cases h
    · rename_i node hnode
      split at h
      · cases h
      · split at h
        · unfold checkIncomplete at h
          split at h
          · cases h
          · split at h
            · rename_i hdetail
              exact hs.nodeErrorDetail node hdetail
            · split at h <;> cases h
        · split at h
          · split at h <;> cases h
          · cases h

/-! ## One check -/

variable {synced : List Nat}

/-- What is left pending by a check waits, and what is not has an outcome. -/
theorem Sourced.checkBarriers (hs : g.Sourced) (barriers : List Barrier) :
    (∀ barrier ∈ (g.checkBarriers synced barriers).1, barrier ∈ barriers ∧ barrier.done = false ∧
      g.checkWait (synced.contains barrier.future) barrier.wait = .stays) ∧
    (∀ r ∈ (g.checkBarriers synced barriers).2, r.graph = g ∧ ∃ barrier ∈ barriers,
      r.future = barrier.future ∧ r.wait = barrier.wait ∧
        g.checkWait (synced.contains barrier.future) barrier.wait = .resolves r.outcome) ∧
    ∀ barrier ∈ barriers, barrier.done = false →
      barrier ∈ (g.checkBarriers synced barriers).1 ∨
        ∃ r ∈ (g.checkBarriers synced barriers).2, r.future = barrier.future ∧
          r.wait = barrier.wait ∧
            g.checkWait (synced.contains barrier.future) barrier.wait = .resolves r.outcome := by
  induction barriers with
  | nil =>
    unfold ContextGraph.checkBarriers
    exact ⟨fun _ h => (nomatch h), fun _ h => (nomatch h), fun _ h => (nomatch h)⟩
  | cons barrier barriers ih =>
    obtain ⟨hstays, hresolved, hall⟩ := ih
    have hstays' : ∀ b ∈ (g.checkBarriers synced barriers).1, b ∈ barrier :: barriers ∧
        b.done = false ∧ g.checkWait (synced.contains b.future) b.wait = .stays := by
      intro b hb
      obtain ⟨hin, hrest⟩ := hstays b hb
      exact ⟨List.mem_cons_of_mem _ hin, hrest⟩
    have hresolved' : ∀ r ∈ (g.checkBarriers synced barriers).2, r.graph = g ∧
        ∃ b ∈ barrier :: barriers, r.future = b.future ∧ r.wait = b.wait ∧
          g.checkWait (synced.contains b.future) b.wait = .resolves r.outcome := by
      intro r hr
      obtain ⟨hgraph, b, hb, hrest⟩ := hresolved r hr
      exact ⟨hgraph, b, List.mem_cons_of_mem _ hb, hrest⟩
    unfold ContextGraph.checkBarriers
    by_cases hdone : barrier.done = true
    · rw [if_pos hdone]
      refine ⟨hstays', hresolved', fun b hb hpending => ?_⟩
      rcases List.mem_cons.mp hb with rfl | hb
      · rw [hdone] at hpending
        cases hpending
      · exact hall b hb hpending
    · rw [if_neg hdone]
      rw [Bool.not_eq_true] at hdone
      cases hcheck : g.checkWait (synced.contains barrier.future) barrier.wait with
      | raises => exact absurd hcheck (hs.checkWait _ _)
      | stays =>
        dsimp only
        refine ⟨fun b hb => ?_, hresolved', fun b hb hpending => ?_⟩
        · rcases List.mem_cons.mp hb with rfl | hb
          · exact ⟨List.mem_cons_self .., hdone, hcheck⟩
          · exact hstays' b hb
        · rcases List.mem_cons.mp hb with rfl | hb
          · exact Or.inl (List.mem_cons_self ..)
          · exact (hall b hb hpending).imp_left (List.mem_cons_of_mem _)
      | resolves outcome =>
        dsimp only
        refine ⟨hstays', fun r hr => ?_, fun b hb hpending => ?_⟩
        · rcases List.mem_cons.mp hr with rfl | hr
          · exact ⟨rfl, barrier, List.mem_cons_self .., rfl, rfl, hcheck⟩
          · exact hresolved' r hr
        · rcases List.mem_cons.mp hb with rfl | hb
          · exact Or.inr ⟨_, List.mem_cons_self .., rfl, rfl, hcheck⟩
          · refine (hall b hb hpending).imp_right fun ⟨r, hr, hrest⟩ => ?_
            exact ⟨r, List.mem_cons_of_mem _ hr, hrest⟩

end ContextGraph

/-- A completed barrier has not been given a result too early, nor a wrong one. -/
def Resolution.Sound (r : Resolution) : Prop :=
  match r.wait, r.outcome with
  | .node path read true noneOnIncomplete, .ok value => r.graph.Passes path read noneOnIncomplete value
  | .whole true, .ok _ => ∀ path ∈ r.graph.nodes, r.graph.Rests path
  | _, _ => True

theorem Resolution.sound_of_error {r : Resolution} {e : WaitError} (h : r.outcome = .error e) :
    r.Sound := by
  unfold Resolution.Sound
  rw [h]
  split <;> trivial

theorem Resolution.sound_of_check {r : Resolution} {synced : Bool}
    (h : r.graph.checkWait synced r.wait = .resolves r.outcome) : r.Sound := by
  unfold Resolution.Sound
  split
  · rename_i hwait houtcome
    rw [hwait, houtcome] at h
    exact ContextGraph.checkWait_ok h
  · rename_i hwait houtcome
    rw [hwait, houtcome] at h
    exact fun path hin => ContextGraph.checkWait_whole h hin
  · trivial

/-- The node that a wait is for. -/
def Wait.path : Wait → Option NodePath
  | .node path _ _ _ => some path
  | _ => none

/-- A pending wait whose node is not there. -/
def Barrier.Stale (barrier : Barrier) (g : ContextGraph) : Prop :=
  barrier.done = false ∧ ∃ path ∈ barrier.wait.path, path ∉ g.nodes

theorem ContextGraph.checkWait_stale {g : ContextGraph} {wait : Wait} {synced : Bool}
    {path : NodePath} (hwait : path ∈ wait.path) (hgone : path ∉ g.nodes) :
    g.checkWait synced wait = .resolves (.error (.stale path)) := by
  cases wait with
  | node p read barrier noneOnIncomplete =>
    obtain rfl := Option.some.inj hwait
    have hnone : g.nodes.lookup p = none := AList.lookup_eq_none.mpr hgone
    unfold ContextGraph.checkWait
    dsimp only
    rw [hnone]
  | whole barrier => cases hwait
  | sync => cases hwait

/-! ## Turns -/

namespace WaitSystem

variable {env : Substrate} {w next : WaitSystem} {synced : List Nat}

/-- These resolutions complete a barrier with an exception. -/
def FailedIn (fresh : List Resolution) (barrier : Barrier) : Prop :=
  ∃ r ∈ fresh, r.future = barrier.future ∧ r.wait = barrier.wait ∧ ∃ e, r.outcome = .error e

/-- What has been completed on the way from one state to another, all of it soundly and at the graph
of the other one. -/
structure Completes (w next : WaitSystem) (fresh : List Resolution) : Prop where
  resolutions : next.resolutions = w.resolutions ++ fresh
  sound : ∀ r ∈ fresh, r.Sound ∧ r.graph = next.graph

theorem Completes.refl (w : WaitSystem) : w.Completes w [] :=
  ⟨(List.append_nil _).symm, fun _ h => nomatch h⟩

theorem Completes.trans {mid : WaitSystem} {fresh fresh' : List Resolution}
    (h : w.Completes mid fresh) (h' : mid.Completes next fresh') (hgraph : next.graph = mid.graph) :
    w.Completes next (fresh ++ fresh') where
  resolutions := by rw [h'.resolutions, h.resolutions, List.append_assoc]
  sound r hr := by
    rcases List.mem_append.mp hr with hr | hr
    · rw [hgraph]
      exact h.sound r hr
    · exact h'.sound r hr

/-- A check leaves no barrier without its node, and fails those it finds so. -/
theorem check_spec (hs : w.graph.Sourced) (synced : List Nat) : ∃ fresh,
    w.Completes (w.check synced) fresh ∧
    (∀ barrier ∈ (w.check synced).barriers, barrier ∈ w.barriers ∧ ¬ barrier.Stale w.graph) ∧
    ∀ barrier ∈ w.barriers, barrier.Stale w.graph → FailedIn fresh barrier := by
  obtain ⟨hstays, hresolved, hall⟩ := @ContextGraph.Sourced.checkBarriers w.graph synced hs w.barriers
  refine ⟨(w.graph.checkBarriers synced w.barriers).2, ⟨rfl, fun r hr => ?_⟩, fun b hb => ?_, ?_⟩
  · obtain ⟨hgraph, b, -, -, hwait, hcheck⟩ := hresolved r hr
    refine ⟨@Resolution.sound_of_check r (synced.contains b.future) ?_, hgraph⟩
    rw [hgraph, hwait]
    exact hcheck
  · obtain ⟨hin, -, hcheck⟩ := hstays b hb
    refine ⟨hin, ?_⟩
    rintro ⟨-, path, hpath, hgone⟩
    rw [ContextGraph.checkWait_stale hpath hgone] at hcheck
    cases hcheck
  · rintro b hb ⟨hpending, path, hpath, hgone⟩
    have hstale : w.graph.checkWait (synced.contains b.future) b.wait =
        .resolves (.error (.stale path)) := ContextGraph.checkWait_stale hpath hgone
    rcases hall b hb hpending with hleft | ⟨r, hr, hfuture, hwait, hcheck⟩
    · obtain ⟨-, -, hcheck⟩ := hstays b hleft
      rw [hstale] at hcheck
      cases hcheck
    · rw [hstale] at hcheck
      exact ⟨r, hr, hfuture, hwait, _, (Verdict.resolves.inj hcheck).symm⟩

/-- Failing what is pending leaves nothing. -/
theorem failBarriers_spec (w : WaitSystem) (e : WaitError) : ∃ fresh,
    w.Completes (w.failBarriers e) fresh ∧
    ∀ barrier ∈ w.barriers, barrier.done = false → FailedIn fresh barrier := by
  refine ⟨_, ⟨rfl, fun r hr => ?_⟩, fun b hb hpending => ?_⟩
  · obtain ⟨b, -, rfl⟩ := List.mem_map.mp hr
    exact ⟨Resolution.sound_of_error rfl, rfl⟩
  · have hmem : b ∈ w.barriers.filter fun barrier => !barrier.done :=
      List.mem_filter.mpr ⟨hb, by rw [hpending]; rfl⟩
    exact ⟨_, List.mem_map_of_mem hmem, rfl, rfl, e, rfl⟩

theorem FailedIn.mono {fresh fresh' : List Resolution} {barrier : Barrier}
    (h : FailedIn fresh barrier) (hsub : fresh ⊆ fresh') : FailedIn fresh' barrier := by
  obtain ⟨r, hr, hrest⟩ := h
  exact ⟨r, hsub hr, hrest⟩

/-- What becomes of the barriers that were pending when a turn has done its work: in an open Context
none is left without its node, in one that has ended none is left. -/
structure Attends (w next : WaitSystem) (fresh : List Resolution) : Prop where
  present : next.sys.ctx.closing = false → ∀ barrier ∈ next.barriers, ¬ barrier.Stale next.graph
  stale : next.sys.ctx.closing = false → ∀ barrier ∈ w.barriers, barrier.Stale next.graph →
    FailedIn fresh barrier
  ended : next.sys.ctx.poisoned = true → next.barriers = [] ∧
    ∀ barrier ∈ w.barriers, barrier.done = false → FailedIn fresh barrier

theorem Attends.mono {fresh fresh' : List Resolution} (h : w.Attends next fresh)
    (hsub : fresh ⊆ fresh') : w.Attends next fresh' where
  present := h.present
  stale hopen barrier hb hstale := (h.stale hopen barrier hb hstale).mono hsub
  ended hend :=
    ⟨(h.ended hend).1, fun barrier hb hpending => ((h.ended hend).2 barrier hb hpending).mono hsub⟩

theorem endTurn_sys (w : WaitSystem) (synced : List Nat) (e : WaitError) :
    (w.endTurn synced e).sys = w.sys := by
  unfold endTurn
  split
  · rfl
  · split <;> rfl

/-- The end of a turn. -/
theorem endTurn_spec (hs : w.graph.Sourced) (synced : List Nat) (e : WaitError) : ∃ fresh,
    w.Completes (w.endTurn synced e) fresh ∧ w.Attends (w.endTurn synced e) fresh := by
  unfold endTurn
  by_cases hpoisoned : w.sys.ctx.poisoned = true
  · rw [if_pos hpoisoned]
    obtain ⟨fresh, hcompletes, hfails⟩ := failBarriers_spec w e
    refine ⟨fresh, hcompletes, fun _ b hb => (nomatch hb), fun _ b hb hstale => ?_, fun _ => ?_⟩
    · exact hfails b hb hstale.1
    · exact ⟨rfl, hfails⟩
  · rw [if_neg hpoisoned]
    by_cases hclosing : w.sys.ctx.closing = true
    · rw [if_pos hclosing]
      refine ⟨[], .refl w, fun hopen => ?_, fun hopen => ?_, fun hend => absurd hend hpoisoned⟩
      · rw [hclosing] at hopen
        cases hopen
      · rw [hclosing] at hopen
        cases hopen
    · rw [if_neg hclosing]
      obtain ⟨first, hcompletes, -, hfails⟩ := check_spec hs synced
      obtain ⟨second, hcompletes', hpresent, -⟩ := check_spec (w := w.check synced) hs synced
      refine ⟨first ++ second, hcompletes.trans hcompletes' rfl, fun _ b hb => (hpresent b hb).2, ?_,
        fun hend => absurd hend hpoisoned⟩
      exact fun _ b hb hstale => (hfails b hb hstale).mono (List.subset_append_left _ _)

/-- The operations on the waits themselves. -/
theorem operate_spec (hs : w.graph.Sourced) (event : Event) :
    (w.operate event).sys = w.sys ∧ ∃ fresh, w.Completes (w.operate event) fresh := by
  cases event with
  | installWait wait now missing synced =>
    unfold operate
    dsimp only
    split
    · exact ⟨rfl, [], .refl w⟩
    · split
      · exact ⟨rfl, [], (List.append_nil _).symm, fun _ h => nomatch h⟩
      · obtain ⟨fresh, hcompletes, -⟩ := check_spec
          (w := { w with barriers := w.barriers ++ [⟨w.next, wait, false⟩], next := w.next + 1 })
          hs synced
        exact ⟨rfl, fresh, hcompletes.resolutions, hcompletes.sound⟩
  | withdrawWait future now missing synced =>
    unfold operate
    dsimp only
    split
    · exact ⟨rfl, [], .refl w⟩
    · exact ⟨rfl, [], (List.append_nil _).symm, fun _ h => nomatch h⟩
  | _ => exact ⟨rfl, [], .refl w⟩

/-! ## Runs -/

/-- Every source stands, no barrier of an open Context is without its node, and a Context that has
ended has no barriers. -/
structure Attended (w : WaitSystem) : Prop where
  sourced : w.graph.Sourced
  present : w.sys.ctx.closing = false → ∀ barrier ∈ w.barriers, ¬ barrier.Stale w.graph
  ended : w.sys.ctx.poisoned = true → w.barriers = []

/-- What a step completes, and what becomes of the barriers that it finds pending. -/
structure Advances (w : WaitSystem) (event : Event) (next : WaitSystem) (fresh : List Resolution) :
    Prop where
  resolutions : next.resolutions = w.resolutions ++ fresh
  sound : ∀ r ∈ fresh, r.Sound ∧ (r.graph = w.graph ∨ r.graph = next.graph)
  attends : (w.operate event).Attends next fresh

/-- A step that is not a turn. -/
theorem Attended.idle {event : Event} (h : w.Attended) (hoperate : w.operate event = w)
    (hgraph : next.graph = w.graph) (hresolutions : next.resolutions = w.resolutions)
    (hopen : next.sys.ctx.closing = false → w.sys.ctx.closing = false)
    (hended : next.sys.ctx.poisoned = w.sys.ctx.poisoned)
    (hbarriers : ∀ barrier ∈ next.barriers, barrier ∈ w.barriers ∨ barrier.done = true)
    (hnone : w.barriers = [] → next.barriers = []) :
    next.Attended ∧ ∃ fresh, w.Advances event next fresh := by
  have hpresent : next.sys.ctx.closing = false →
      ∀ barrier ∈ next.barriers, ¬ barrier.Stale next.graph := by
    intro hnext barrier hb hstale
    rw [hgraph] at hstale
    rcases hbarriers barrier hb with hold | hdone
    · exact h.present (hopen hnext) barrier hold hstale
    · rw [hstale.1] at hdone
      cases hdone
  refine ⟨⟨hgraph ▸ h.sourced, hpresent, fun hend => hnone (h.ended (hended ▸ hend))⟩, [],
    by rw [hresolutions, List.append_nil], fun _ hr => (nomatch hr), hpresent, ?_, fun hend => ?_⟩
  · intro hnext barrier hb hstale
    rw [hoperate] at hb
    exact absurd (hgraph ▸ hstale) (h.present (hopen hnext) barrier hb)
  · have hnil := h.ended (hended ▸ hend)
    refine ⟨hnone hnil, fun barrier hb => ?_⟩
    rw [hoperate, hnil] at hb
    exact nomatch hb

/-- A turn: its operation, then what it makes of the Context, then its end. -/
theorem Attended.turn {event : Event} (h : w.Attended) {sys : System} (hs : sys.ctx.graph.Sourced)
    (synced : List Nat) (e : WaitError)
    (hnext : next = ({ w.operate event with sys } : WaitSystem).endTurn synced e) :
    next.Attended ∧ ∃ fresh, w.Advances event next fresh := by
  obtain ⟨-, first, hfirst⟩ := operate_spec h.sourced event
  have hsys : (w.operate event).sys = w.sys := (operate_spec h.sourced event).1
  obtain ⟨second, hsecond, hattends⟩ :=
    endTurn_spec (w := { w.operate event with sys }) hs synced e
  subst hnext
  have hfinal := endTurn_sys { w.operate event with sys } synced e
  refine ⟨⟨?_, hattends.present, fun hend => (hattends.ended hend).1⟩, first ++ second, ?_, ?_, ?_⟩
  · unfold graph
    rw [hfinal]
    exact hs
  · rw [hsecond.resolutions, ← List.append_assoc]
    exact congrArg (· ++ second) hfirst.resolutions
  · intro r hr
    rcases List.mem_append.mp hr with hr | hr
    · obtain ⟨hsound, hgraph⟩ := hfirst.sound r hr
      refine ⟨hsound, Or.inl ?_⟩
      rw [hgraph]
      unfold graph
      rw [hsys]
    · obtain ⟨hsound, hgraph⟩ := hsecond.sound r hr
      exact ⟨hsound, Or.inr hgraph⟩
  · exact ⟨hattends.present, (hattends.mono (List.subset_append_right _ _)).stale,
      (hattends.mono (List.subset_append_right _ _)).ended⟩

/-- A turn of the controller that runs no operation of the Context. -/
theorem sourced_turn (hs : w.graph.Sourced) (now : Nat) (missing : List Checksum) :
    (w.sys.turn env (pure () : M Unit) now missing).ctx.graph.Sourced := by
  rcases idle_cases env now missing w.sys with heq | ⟨ctx, hm, heq⟩
  · rw [heq]
    exact hs
  · rw [heq]
    refine Moves.sourced (fun g hl => ?_) hm hs
    exact False.elim hl

/-- An event of the Context that takes a turn. -/
theorem step_context {event : SeamlessWorkflow.Event} (h : ∀ run, event ≠ .cancelled run)
    (synced : List Nat) : w.step env (.context event synced) =
      (w.sys.step env event).map fun sys =>
        ({ w with sys } : WaitSystem).endTurn synced (closeError event) := by
  cases event with
  | cancelled run => exact absurd rfl (h run)
  | _ => rfl

/-- One step. -/
theorem Attended.step {event : Event} (h : w.Attended) (hstep : w.step env event = some next) :
    next.Attended ∧ ∃ fresh, w.Advances event next fresh := by
  cases event with
  | context event synced =>
    by_cases hcancelled : ∃ run, event = .cancelled run
    · obtain ⟨run, rfl⟩ := hcancelled
      obtain ⟨sys, hsys, rfl⟩ := Option.map_eq_some_iff.mp hstep
      obtain ⟨-, hsys⟩ := Option.ite_none_right_eq_some.mp hsys
      obtain rfl := Option.some.inj hsys
      exact h.idle rfl rfl rfl (fun hopen => hopen) rfl (fun _ hb => Or.inl hb) fun hnil => hnil
    · rw [step_context (fun run heq => hcancelled ⟨run, heq⟩) synced] at hstep
      obtain ⟨sys, hsys, rfl⟩ := Option.map_eq_some_iff.mp hstep
      exact h.turn (System.step_sourced hsys h.sourced) synced _ rfl
  | installWait wait now missing synced =>
    obtain rfl := Option.some.inj hstep
    exact h.turn (sourced_turn h.sourced now missing) synced _ rfl
  | withdrawWait future now missing synced =>
    obtain rfl := Option.some.inj hstep
    exact h.turn (sourced_turn h.sourced now missing) synced _ rfl
  | cancel future =>
    obtain rfl := Option.some.inj hstep
    refine h.idle rfl rfl rfl (fun hopen => hopen) rfl (fun barrier hb => ?_) fun hnil => ?_
    · obtain ⟨old, hold, rfl⟩ := List.mem_map.mp hb
      by_cases hfuture : old.future = future
      · rw [if_pos hfuture]
        exact Or.inr rfl
      · rw [if_neg hfuture]
        exact Or.inl hold
    · dsimp only
      rw [hnil]
      rfl
  | closing =>
    obtain rfl := Option.some.inj hstep
    exact h.idle rfl rfl rfl (fun hopen => Bool.noConfusion hopen) rfl (fun _ hb => Or.inl hb)
      fun hnil => hnil
  | poison =>
    obtain rfl := Option.some.inj hstep
    obtain ⟨fresh, hcompletes, hfails⟩ := failBarriers_spec
      { w with sys := { w.sys with ctx := w.sys.ctx.poison } } .controllerFailed
    refine ⟨⟨h.sourced, fun _ _ hb => (nomatch hb), fun _ => rfl⟩, fresh, hcompletes.resolutions, ?_,
      fun _ _ hb => (nomatch hb), ?_, fun _ => ⟨rfl, hfails⟩⟩
    · exact fun r hr => ⟨(hcompletes.sound r hr).1, Or.inr (hcompletes.sound r hr).2⟩
    · exact fun _ barrier hb hstale => hfails barrier hb hstale.1

theorem reachable_attended
    (h : Transition.Reachable (WaitSystem.step env) {} (fun _ _ => True) w) : w.Attended := by
  refine h.invariant ⟨fun _ hedge => (nomatch hedge), fun _ _ hb => (nomatch hb), fun _ => rfl⟩ ?_
  exact fun w next event ha _ hstep => (ha.step hstep).1

/-- In every run: what a step completes is completed soundly, in an open Context no barrier stays
pending without its node, and one that is pending when the Context ends fails. -/
theorem reachable_advances {event : Event}
    (h : Transition.Reachable (WaitSystem.step env) {} (fun _ _ => True) w)
    (hstep : w.step env event = some next) : ∃ fresh, w.Advances event next fresh :=
  ((reachable_attended h).step hstep).2

/-- A transformer is launched, and its result is waited for. -/
def awaitRun : List Event :=
  [.context (.turn (.assign [.key "a"] (.config { codeChecksum := some ⟨10⟩ })) 0 []) [],
    .installWait (.node [.key "a"] true true false) 0 [] []]

/-- The run finishes. -/
def finishRun : Event :=
  .context (.finished ⟨[.key "a"], 1, ⟨⟨10⟩, [], ""⟩, 0⟩ ⟨77⟩ (.ok ⟨99⟩) 0) []

theorem awaitRun_runs : (Transition.run (WaitSystem.step .fixed) awaitRun {}).isSome = true := by
  decide +kernel

theorem finishRun_steps : (WaitSystem.step .fixed
    ((Transition.run (WaitSystem.step .fixed) awaitRun {}).get awaitRun_runs) finishRun).isSome =
      true := by decide +kernel

theorem reachable_advances_finishRun :
    ∃ fresh, WaitSystem.Advances
      ((Transition.run (WaitSystem.step .fixed) awaitRun {}).get awaitRun_runs) finishRun
      ((WaitSystem.step .fixed _ finishRun).get finishRun_steps) fresh :=
  reachable_advances (Transition.Reachable.of_run .start (by decide +kernel) awaitRun_runs)
    (Option.some_get finishRun_steps).symm

/-- The transformer is deleted after `close` has been called and before `_begin_close`. -/
def deleteClosing : List Event :=
  awaitRun ++ [.closing, .context (.turn (.delete [.key "a"]) 0 []) []]

theorem deleteClosing_runs :
    (Transition.run (WaitSystem.step .fixed) deleteClosing {}).isSome = true := by decide +kernel

/-- A transformer without code is read, and the caller asks for `None`. -/
def readUnwired : List Event :=
  [.context (.turn (.assign [.key "a"] (.config {})) 0 []) [],
    .installWait (.node [.key "a"] true true true) 0 [] []]

theorem readUnwired_runs :
    (Transition.run (WaitSystem.step .fixed) readUnwired {}).isSome = true := by decide +kernel

/-- A barrier stays pending without its node, and a read gives no lease. -/
theorem not_reachable_advances :
    (¬ ∀ w, Transition.Reachable (WaitSystem.step .fixed) {} (fun _ _ => True) w →
      w.sys.ctx.poisoned = false → ∀ barrier ∈ w.barriers, ¬ barrier.Stale w.graph) ∧
    ¬ ∀ w, Transition.Reachable (WaitSystem.step .fixed) {} (fun _ _ => True) w →
      ∀ r ∈ w.resolutions, ∀ path noneOnIncomplete value,
        r.wait = .node path true true noneOnIncomplete → r.outcome = .ok value →
          ∃ checksum celltype, value = .lease checksum celltype := by
  constructor
  · intro h
    have hreach : Transition.Reachable (WaitSystem.step .fixed) {} (fun _ _ => True) _ :=
      .of_run .start (by decide +kernel) deleteClosing_runs
    refine h _ hreach (by decide +kernel) ⟨0, .node [.key "a"] true true false, false⟩
      (by decide +kernel) ⟨rfl, [.key "a"], rfl, by decide +kernel⟩
  · intro h
    have hreach : Transition.Reachable (WaitSystem.step .fixed) {} (fun _ _ => True) _ :=
      .of_run .start (by decide +kernel) readUnwired_runs
    have hread : ∃ r ∈ ((Transition.run (WaitSystem.step .fixed) readUnwired {}).get
        readUnwired_runs).resolutions,
        r.wait = .node [.key "a"] true true true ∧ r.outcome = .ok .nothing := by decide +kernel
    obtain ⟨r, hr, hwait, houtcome⟩ := hread
    obtain ⟨checksum, celltype, heq⟩ := h _ hreach r hr _ _ _ hwait houtcome
    cases heq

end WaitSystem

end SeamlessWorkflow
