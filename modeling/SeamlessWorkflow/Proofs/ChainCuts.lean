import SeamlessWorkflow.Proofs.LinkIndexes

/-!
# Chains that are cut as recipes are

The recipe of a chain can be read back from its links: its path, its conversions and their positions.
A chain has the links of the recipe that is read back from it when no path is cut in two, except below
a deep celltype.
-/

namespace SeamlessWorkflow

/-! ## The recipe of a list of links -/

/-- The conversions among links, at their positions in the path. -/
def conversionsFrom : Nat → List Link → List ConversionStep
  | _, [] => []
  | position, (celltype, path) :: links =>
    if path = [] then (position, celltype) :: conversionsFrom position links
    else conversionsFrom (position + path.length) links

/-- The links of the recipe that is read back, with the path that has not been cut yet. -/
def cutFrom : Celltype → Path → List Link → List Link
  | current, pending, [] => pathLinks current pending
  | current, pending, (celltype, path) :: links =>
    if path = [] then pathLinks current pending ++ (celltype, []) :: cutFrom celltype [] links
    else cutFrom current (pending ++ path) links

/-- No path is cut in two, except below a deep celltype. -/
def Canonical : Celltype → List Link → Prop
  | current, first :: second :: links =>
    (first.2 ≠ [] → second.2 ≠ [] → current.isDeep = true) ∧ Canonical first.1 (second :: links)
  | _, _ => True

theorem conversionsFrom_path {path : Path} (hpath : path ≠ []) (position : Nat) (celltype : Celltype)
    (links : List Link) : conversionsFrom position ((celltype, path) :: links) =
      conversionsFrom (position + path.length) links := if_neg hpath

theorem cutFrom_path {path : Path} (hpath : path ≠ []) (current celltype : Celltype) (pending : Path)
    (links : List Link) : cutFrom current pending ((celltype, path) :: links) =
      cutFrom current (pending ++ path) links := if_neg hpath

theorem conversionsFrom_append (position : Nat) (links links' : List Link) :
    conversionsFrom position (links ++ links') = conversionsFrom position links ++
      conversionsFrom (position + (links.flatMap Prod.snd).length) links' := by
  induction links generalizing position with
  | nil => rfl
  | cons link links ih =>
    obtain ⟨celltype, path⟩ := link
    rw [List.cons_append]
    by_cases hpath : path = []
    · subst hpath
      exact congrArg (((position : Int), celltype) :: ·) (ih position)
    · rw [conversionsFrom_path hpath, conversionsFrom_path hpath, ih, List.flatMap_cons,
        List.length_append, Nat.add_assoc]

theorem position_le_of_conversionsFrom {links : List Link} : ∀ {position : Nat},
    ∀ step ∈ conversionsFrom position links, (position : Int) ≤ step.1 := by
  induction links with
  | nil => exact fun _ h => nomatch h
  | cons link links ih =>
    obtain ⟨celltype, path⟩ := link
    intro position step hstep
    unfold conversionsFrom at hstep
    split at hstep
    · rcases List.mem_cons.mp hstep with rfl | hstep
      · exact le_refl _
      · exact ih step hstep
    · have := ih step hstep
      omega

theorem sorted_conversionsFrom (position : Nat) (links : List Link) :
    sortedSteps (conversionsFrom position links) = conversionsFrom position links := by
  refine List.Pairwise.insertionSort_eq ?_
  induction links generalizing position with
  | nil => exact List.Pairwise.nil
  | cons link links ih =>
    obtain ⟨celltype, path⟩ := link
    unfold conversionsFrom
    split
    · exact List.Pairwise.cons (fun step hstep => position_le_of_conversionsFrom step hstep) (ih _)
    · exact ih _

/-- Cutting the recipe that is read back, behind the part of the path that has been cut. -/
theorem anonymousLinksFrom_conversions (links : List Link) : ∀ (done pending : Path)
    (current : Celltype),
    anonymousLinksFrom (done ++ pending ++ links.flatMap Prod.snd)
        (conversionsFrom (done.length + pending.length) links) current done.length =
      cutFrom current pending links := by
  induction links with
  | nil =>
    intro done pending current
    show pathLinks current ((done ++ pending ++ []).drop done.length) = pathLinks current pending
    rw [List.append_nil, List.drop_left]
  | cons link links ih =>
    obtain ⟨celltype, path⟩ := link
    intro done pending current
    by_cases hpath : path = []
    · subst hpath
      have hrest := ih (done ++ pending) [] celltype
      rw [List.append_nil, List.length_nil, Nat.add_zero] at hrest
      rw [List.flatMap_cons, List.nil_append, ← List.length_append]
      set whole := done ++ pending ++ links.flatMap Prod.snd with hwhole
      have hnext : min (max (Int.toNat (done ++ pending).length) done.length) whole.length =
          (done ++ pending).length := by
        simp only [hwhole, List.length_append, Int.toNat_natCast]
        omega
      show pathLinks current ((whole.take (min (max (Int.toNat (done ++ pending).length) done.length)
          whole.length)).drop done.length) ++ (celltype, []) ::
        anonymousLinksFrom whole (conversionsFrom (done ++ pending).length links) celltype
          (min (max (Int.toNat (done ++ pending).length) done.length) whole.length) =
            pathLinks current pending ++ (celltype, []) :: cutFrom celltype [] links
      rw [hnext, hrest, hwhole, List.take_left, List.drop_left]
    · rw [conversionsFrom_path hpath, cutFrom_path hpath, ← ih done (pending ++ path) current,
        List.flatMap_cons, List.length_append]
      simp only [List.append_assoc, Nat.add_assoc]

/-! ## Chains that no path is cut in two in -/

/-- A path that is read from a celltype over which it is well-formed is one link. -/
theorem pathLinks_wired {current celltype : Celltype} {path : Path} (hpath : path ≠ [])
    (h : linkMiswired current celltype path = false) : pathLinks current path = [(celltype, path)] := by
  unfold linkMiswired at h
  match path with
  | [] => exact absurd rfl hpath
  | [k] =>
    dsimp only at h
    split at h
    · cases h
    · have hsame : celltype = projectedCelltype current [k] := by simpa using h
      rw [hsame]
      rfl
  | k :: k' :: rest =>
    dsimp only at h
    split at h
    · cases h
    · rename_i hshallow
      have hsame : celltype = projectedCelltype current (k :: k' :: rest) := by simpa using h
      rw [hsame]
      exact if_neg (by simpa using hshallow)

/-- A link below a deep celltype steps into one member, which is not deep. -/
theorem member_of_wired {current celltype : Celltype} {path : Path} (hdeep : current.isDeep = true)
    (hpath : path ≠ []) (h : linkMiswired current celltype path = false) :
    ∃ k, path = [k] ∧ k.isSlice = false ∧ celltype = projectedCelltype current [k] ∧
      celltype.isDeep = false := by
  unfold linkMiswired at h
  match path with
  | [] => exact absurd rfl hpath
  | k :: rest =>
    dsimp only at h
    split at h
    · cases h
    · rename_i hkey
      rw [hdeep, Bool.true_and, Bool.not_eq_true', Bool.not_eq_false, Bool.and_eq_true] at hkey
      obtain rfl : rest = [] := List.isEmpty_iff.mp hkey.1
      have hsame : celltype = projectedCelltype current [k] := by simpa using h
      have hslice : k.isSlice = false := by
        cases k <;> simp_all [Component.isKey, Component.isSlice]
      refine ⟨k, rfl, hslice, hsame, ?_⟩
      rw [hsame, projectedCelltype_cons, projectedCelltype_nil]
      cases current <;> simp_all [memberCelltype, Celltype.isDeep]

/-- Links that are well-formed over a celltype, and in which no path is cut in two, are those of the
recipe that is read back from them. -/
theorem cutFrom_canonical : ∀ {links : List Link} {current : Celltype},
    linksMiswired current links = false → Canonical current links → cutFrom current [] links = links
  | [], _, _, _ => rfl
  | (celltype, []) :: links, current, hwired, hcanonical => by
    unfold linksMiswired at hwired
    rw [Bool.or_eq_false_iff] at hwired
    have hrest : Canonical celltype links := by
      cases links with
      | nil => trivial
      | cons next links => exact hcanonical.2
    show [] ++ (celltype, []) :: cutFrom celltype [] links = _
    rw [cutFrom_canonical hwired.2 hrest, List.nil_append]
  | [(celltype, k :: path)], current, hwired, _ => by
    unfold linksMiswired at hwired
    rw [Bool.or_eq_false_iff] at hwired
    exact pathLinks_wired (List.cons_ne_nil _ _) hwired.1
  | (celltype, k :: path) :: (celltype', []) :: links, current, hwired, hcanonical => by
    unfold linksMiswired at hwired
    rw [Bool.or_eq_false_iff] at hwired
    have hrest := cutFrom_canonical hwired.2 hcanonical.2
    show pathLinks current (k :: path) ++ (celltype', []) :: cutFrom celltype' [] links = _
    rw [pathLinks_wired (List.cons_ne_nil _ _) hwired.1]
    exact congrArg ((celltype, k :: path) :: ·) hrest
  | (celltype, k :: path) :: (celltype', k' :: path') :: links, current, hwired, hcanonical => by
    -- below a deep celltype the rest of the path is read from the member
    unfold linksMiswired at hwired
    rw [Bool.or_eq_false_iff] at hwired
    have hdeep : current.isDeep = true :=
      hcanonical.1 (List.cons_ne_nil _ _) (List.cons_ne_nil _ _)
    obtain ⟨member, hpath, hslice, hcelltype, hshallow⟩ :=
      member_of_wired hdeep (List.cons_ne_nil _ _) hwired.1
    have hrest := cutFrom_canonical hwired.2 hcanonical.2
    have hcut : ∀ pending, (links = [] ∨ ∃ next links', links = (next, []) :: links') →
        cutFrom current (k :: path ++ pending) links =
          (celltype, k :: path) :: cutFrom celltype pending links := by
      have hsplit : ∀ pending, pathLinks current (k :: path ++ pending) =
          (celltype, k :: path) :: pathLinks celltype pending := fun pending => by
        rw [hpath, List.singleton_append, pathLinks_deep hdeep hslice, ← hcelltype]
      rintro pending (rfl | ⟨next, links', rfl⟩)
      · exact hsplit pending
      · show pathLinks current (k :: path ++ pending) ++ (next, []) :: cutFrom next [] links' = _
        rw [hsplit]
        rfl
    show cutFrom current (k :: path ++ k' :: path') links = _
    rw [hcut]
    · exact congrArg ((celltype, k :: path) :: ·) hrest
    · rcases links with _ | ⟨⟨next, _ | ⟨k'', path''⟩⟩, links'⟩
      · exact Or.inl rfl
      · exact Or.inr ⟨next, links', rfl⟩
      · have := hcanonical.2.1 (List.cons_ne_nil _ _) (List.cons_ne_nil _ _)
        rw [hshallow] at this
        cases this

/-- The links of the recipe that is read back from links. -/
theorem anonymousLinks_canonical {links : List Link} {current : Celltype}
    (hwired : linksMiswired current links = false) (hcanonical : Canonical current links) :
    anonymousLinks current (links.flatMap Prod.snd) (conversionsFrom 0 links) = links := by
  unfold anonymousLinks
  rw [sorted_conversionsFrom]
  exact (anonymousLinksFrom_conversions links [] [] current).trans (cutFrom_canonical hwired hcanonical)

/-- Only the first two links look at the celltype that is read. -/
theorem Canonical.recast {recorded current : Celltype} {links : List Link}
    (h : Canonical recorded links) (hdeep : readsBelowDeep links = true → current.isDeep = true) :
    Canonical current links := by
  match links with
  | [] => trivial
  | [_] => trivial
  | first :: second :: _ =>
    refine ⟨fun hfirst hsecond => hdeep ?_, h.2⟩
    unfold readsBelowDeep
    simp [hfirst, hsecond]

theorem Canonical.deep {current : Celltype} {links : List Link} (h : Canonical current links)
    (hbelow : readsBelowDeep links = true) : current.isDeep = true := by
  match links with
  | [] => cases hbelow
  | [_] => cases hbelow
  | first :: second :: _ =>
    unfold readsBelowDeep at hbelow
    simp only [Bool.and_eq_true, Bool.not_eq_true', List.isEmpty_eq_false_iff] at hbelow
    exact h.1 hbelow.1 hbelow.2

/-- One more link. -/
theorem Canonical.concat {current : Celltype} {links : List Link} {last next : Link}
    (h : Canonical current (links ++ [last]))
    (hnext : last.2 ≠ [] → next.2 ≠ [] → (linksCelltype current links).isDeep = true) :
    Canonical current (links ++ [last, next]) := by
  induction links generalizing current with
  | nil => exact ⟨hnext, trivial⟩
  | cons link links ih =>
    have hrest : Canonical link.1 (links ++ [last, next]) := by
      refine ih ?_ fun hl hn => ?_
      · cases links with
        | nil => trivial
        | cons _ _ => exact h.2
      · rw [← linksCelltype_cons]
        exact hnext hl hn
    cases links with
    | nil => exact ⟨h.1, hrest⟩
    | cons _ _ => exact ⟨h.1, hrest⟩

/-! ## Edges -/

theorem flatMap_link (chain : List Recipe) :
    (chain.map Recipe.link).flatMap Prod.snd = chain.flatMap Recipe.path := by
  rw [List.flatMap_map]
  rfl

/-- A chain in which no path is cut in two is cut as the recipe that is read back from it. -/
theorem Edge.cut_of_canonical {edge : Edge} {celltype : Celltype}
    (hsteps : edge.sourceConversionSteps = conversionsFrom 0 (edge.sourceChain.map Recipe.link))
    (h : Canonical celltype (edge.sourceChain.map Recipe.link)) : edge.Cut := by
  intro current hwired hdeep
  rw [hsteps, ← flatMap_link]
  exact (anonymousLinks_canonical hwired (h.recast hdeep)).symm

/-- What an edge is read as depends on the nodes alone. -/
theorem Edge.ReadAsWired.of_graph {g g' : ContextGraph} {edge : Edge} (h : edge.ReadAsWired g)
    (hresolve : g'.resolveExisting = g.resolveExisting) (hcelltype : g'.nodeCelltype = g.nodeCelltype) :
    edge.ReadAsWired g' := by
  refine ⟨h.formed, h.cut, ?_, ?_, ?_⟩
  · rw [hresolve]
    exact h.localPath
  · rw [hresolve]
    exact h.starts
  · rw [hresolve, hcelltype]
    exact h.deep

theorem ContextGraph.nodeCelltype_of_nodes {g g' : ContextGraph} (h : g'.nodes = g.nodes) :
    g'.nodeCelltype = g.nodeCelltype := by
  funext path
  unfold nodeCelltype
  rw [h]

theorem Edge.ReadAsWired.of_nodes {g g' : ContextGraph} {edge : Edge} (h : edge.ReadAsWired g)
    (hnodes : g'.nodes = g.nodes) : edge.ReadAsWired g' :=
  h.of_graph (ContextGraph.resolveExisting_of_nodes hnodes) (ContextGraph.nodeCelltype_of_nodes hnodes)

/-- An edge converts exactly when it has conversions. -/
def Edge.Formed (edge : Edge) : Prop :=
  edge.sourceConversion = true ↔ edge.sourceConversionSteps ≠ []

/-- An edge whose chain no path is cut in two in is read as it was wired. -/
theorem Edge.readAsWired_of_canonical {g : ContextGraph} {edge : Edge} {node : NodePath}
    (hformed : edge.Formed)
    (hresolves : g.resolveExisting edge.source = some (node, edge.sourceChain.flatMap Recipe.path))
    (hstarts : StartsAt edge.sourceChain node)
    (hsteps : edge.sourceConversionSteps = conversionsFrom 0 (edge.sourceChain.map Recipe.link))
    (h : Canonical (g.nodeCelltype node) (edge.sourceChain.map Recipe.link)) : edge.ReadAsWired g := by
  have hat : ∀ r ∈ g.resolveExisting edge.source, r = (node, edge.sourceChain.flatMap Recipe.path) :=
    fun r hr => Option.some.inj (hr.symm.trans hresolves)
  refine ⟨hformed, Edge.cut_of_canonical hsteps h, fun r hr => ?_, fun r hr => ?_,
    fun r hr hbelow => ?_⟩
  · rw [hat r hr]
  · rw [hat r hr]
    exact hstarts
  · rw [hat r hr]
    exact h.deep hbelow

namespace ContextGraph

/-- The links that a formed edge registers are those of its conversions. -/
theorem Registers.cuts {g : ContextGraph} {edge : Edge} {node : NodePath} {localPath : Path}
    (h : g.Registers edge node localPath) (hformed : edge.Formed) :
    edge.sourceChain.map Recipe.link =
      anonymousLinks (g.nodeCelltype node) localPath edge.sourceConversionSteps := by
  have hsteps : ∀ sourceType, conversionSteps edge localPath sourceType =
      edge.sourceConversionSteps := by
    intro sourceType
    unfold conversionSteps
    by_cases hconverts : edge.sourceConversion = true
    · rw [if_pos hconverts, if_pos (hformed.mp hconverts)]
    · rw [if_neg hconverts]
      exact (not_not.mp fun hne => hconverts (hformed.mpr hne)).symm
  rw [h.links, hsteps]

/-- An edge is read as it was wired when its chain has just been registered. -/
theorem Registers.readAsWired {g : ContextGraph} {edge : Edge} {node : NodePath} {localPath : Path}
    (h : g.Registers edge node localPath) (hformed : edge.Formed) : edge.ReadAsWired g := by
  have hcut := h.cuts hformed
  have hpath : edge.sourceChain.flatMap Recipe.path = localPath := by
    rw [← flatMap_link, hcut, flatMap_anonymousLinks]
  have hat : ∀ r ∈ g.resolveExisting edge.source, r = (node, localPath) := fun r hr =>
    Option.some.inj (hr.symm.trans h.resolved)
  refine ⟨hformed, fun current hwired hdeep => ?_, fun r hr => ?_, fun r hr => ?_, fun r hr hbelow => ?_⟩
  · rw [hpath]
    unfold Edge.ReadsBelowDeep at hdeep
    rw [hcut] at hwired hdeep ⊢
    exact anonymousLinks_again hwired hdeep
  · rw [hat r hr, hpath]
  · rw [hat r hr]
    exact h.starts
  · rw [hat r hr]
    unfold Edge.ReadsBelowDeep at hbelow
    rw [hcut] at hbelow
    exact deep_of_readsBelowDeep hbelow

end ContextGraph

end SeamlessWorkflow
