import SeamlessWorkflow.Library.LongestPrefix
import SeamlessWorkflow.Library.Reach
import Mathlib.Data.List.Nodup

/-!
# Wirings of a tree of nodes

Nodes stand at paths of one key space. A terminal is a node path with a path inside the node, but
only its flattened path is read back: the node is the longest prefix at which a node stands. So a
new node can take over the wires of another one. The changes of a wiring are given here as
functions, each with the conditions under which it keeps a wiring well formed.
-/

/-- A node path and a path inside the node. -/
structure Terminal (κ : Type*) where
  node : List κ
  inner : List κ

structure Wire (κ : Type*) where
  source : Terminal κ
  target : Terminal κ

/-- The nodes, each with the mark that a wire to its root excludes other wires into it, and the
wires. -/
structure Wiring (κ : Type*) where
  node : List κ → Option Bool
  wires : List (Wire κ)

/-- The path of a terminal that is read back. -/
def Terminal.flat {κ : Type*} (t : Terminal κ) : List κ := t.node ++ t.inner

namespace Wiring

open Relation Reach LongestPrefix

variable {κ : Type*}

/-- Does a node stand at `p`? -/
def stands (w : Wiring κ) (p : List κ) : Bool := (w.node p).isSome

/-- `n` and `l` are the node and the inner path that a flat path is read as. -/
def Resolves (w : Wiring κ) (path n l : List κ) : Prop := Reads w.stands path n l

/-- The dependencies between nodes. -/
def Dep (w : Wiring κ) (a b : List κ) : Prop :=
  ∃ wire ∈ w.wires, (∃ l, w.Resolves wire.source.flat a l) ∧ ∃ l, w.Resolves wire.target.flat b l

/-- Every wire joins two nodes, no two wires have one target, a wire to the root of a marked node
excludes other wires into that node, and no node depends on itself. Wires reach at most one step
into a node, so that a new node takes over whole targets. -/
structure WellWired (w : Wiring κ) : Prop where
  sourceResolves : ∀ wire ∈ w.wires, ∃ n l, w.Resolves wire.source.flat n l
  targetResolves : ∀ wire ∈ w.wires, ∃ n l, w.Resolves wire.target.flat n l ∧ l.length ≤ 1
  distinct : (w.wires.map fun wire => wire.target.flat).Nodup
  rootAlone : ∀ wire ∈ w.wires, ∀ wire' ∈ w.wires, ∀ n l, w.node n = some true →
    w.Resolves wire.target.flat n [] → w.Resolves wire'.target.flat n l → l = []
  acyclic : Acyclic w.Dep

/-! ## Reading paths back -/

theorem Resolves.unique {w : Wiring κ} {path n l n' l' : List κ} (h : w.Resolves path n l)
    (h' : w.Resolves path n' l') : n = n' ∧ l = l' := Reads.unique h h'

theorem Resolves.stands {w : Wiring κ} {path n l : List κ} (h : w.Resolves path n l) :
    w.stands n = true := h.accepted

/-- A node path is read as the node itself. -/
theorem resolves_self {w : Wiring κ} {n : List κ} (h : w.stands n = true) (hn : n ≠ []) :
    w.Resolves n n [] :=
  ⟨hn, h, List.append_nil n, fun _ _ hm => hm.length_le⟩

/-- A node at `p` would take over what a terminal is meant for: it stands further along its flat
path than the node of the terminal. -/
def Blocks (p : List κ) (t : Terminal κ) : Prop := p <+: t.flat ∧ t.node.length < p.length

instance [DecidableEq κ] (p : List κ) (t : Terminal κ) : Decidable (Blocks p t) :=
  inferInstanceAs (Decidable (_ ∧ _))

/-- A terminal is read back as it is meant, exactly when its node stands and no node blocks it. -/
theorem resolves_iff {w : Wiring κ} {t : Terminal κ} : w.Resolves t.flat t.node t.inner ↔
    t.node ≠ [] ∧ w.stands t.node = true ∧ ∀ p, w.stands p = true → ¬ Blocks p t := by
  constructor
  · refine fun h => ⟨h.nonempty, h.stands, fun p hp hb => ?_⟩
    have := h.longest p hp hb.1
    have := hb.2
    omega
  · rintro ⟨hne, hs, hfree⟩
    refine ⟨hne, hs, rfl, fun m hm hpre => ?_⟩
    by_contra hlt
    exact hfree m hm ⟨hpre, by omega⟩

/-- A terminal at the root of a node is not blocked. -/
theorem not_blocks_root {p n : List κ} : ¬ Blocks p ⟨n, []⟩ := by
  rintro ⟨hpre, hlt⟩
  have := hpre.length_le
  simp only [Terminal.flat, List.append_nil] at this
  exact absurd hlt (Nat.not_lt.mpr this)

/-! ## Dropping wires and nodes -/

/-- Fewer wires keep a wiring well formed. -/
theorem WellWired.sublist {w : Wiring κ} (h : w.WellWired) {wires : List (Wire κ)}
    (hsub : wires.Sublist w.wires) : Wiring.WellWired { w with wires := wires } where
  sourceResolves wire hw := h.sourceResolves wire (hsub.subset hw)
  targetResolves wire hw := h.targetResolves wire (hsub.subset hw)
  distinct := h.distinct.sublist (hsub.map _)
  rootAlone wire hw wire' hw' := h.rootAlone wire (hsub.subset hw) wire' (hsub.subset hw')
  acyclic := h.acyclic.mono fun _ _ ⟨wire, hw, hs, ht⟩ => ⟨wire, hsub.subset hw, hs, ht⟩

/-- Remove nodes, and keep some of the wires. -/
def remove (w : Wiring κ) (dead : List κ → Bool) (keep : Wire κ → Bool) : Wiring κ :=
  { node := fun p => if dead p then none else w.node p, wires := w.wires.filter keep }

/-- Removing nodes keeps the reading of a path whose node stays. -/
theorem Resolves.remove {w : Wiring κ} {path n l : List κ} (h : w.Resolves path n l)
    {dead : List κ → Bool} (keep : Wire κ → Bool) (hn : dead n = false) :
    (w.remove dead keep).Resolves path n l := by
  refine h.of_reject (fun m hm => ?_) ?_
  · by_cases hd : dead m = true
    · simp [Wiring.stands, Wiring.remove, hd] at hm
    · simpa [Wiring.stands, Wiring.remove, hd] using hm
  · simpa [Wiring.stands, Wiring.remove, hn] using h.accepted

/-- Removing nodes with all wires that have an end in one of them. -/
theorem WellWired.remove {w : Wiring κ} (h : w.WellWired) (dead : List κ → Bool)
    (keep : Wire κ → Bool) (hkeep : ∀ wire ∈ w.wires, keep wire = true →
      (∀ n l, w.Resolves wire.source.flat n l → dead n = false) ∧
        ∀ n l, w.Resolves wire.target.flat n l → dead n = false) :
    (w.remove dead keep).WellWired := by
  -- the kept wires are read as before
  have source : ∀ wire ∈ (w.remove dead keep).wires, ∀ n l,
      (w.remove dead keep).Resolves wire.source.flat n l → w.Resolves wire.source.flat n l := by
    intro wire hw n l hr
    obtain ⟨hw, hk⟩ := List.mem_filter.mp hw
    obtain ⟨n', l', hr'⟩ := h.sourceResolves wire hw
    obtain ⟨rfl, rfl⟩ := hr.unique (hr'.remove keep ((hkeep wire hw hk).1 _ _ hr'))
    exact hr'
  have target : ∀ wire ∈ (w.remove dead keep).wires, ∀ n l,
      (w.remove dead keep).Resolves wire.target.flat n l → w.Resolves wire.target.flat n l := by
    intro wire hw n l hr
    obtain ⟨hw, hk⟩ := List.mem_filter.mp hw
    obtain ⟨n', l', hr', -⟩ := h.targetResolves wire hw
    obtain ⟨rfl, rfl⟩ := hr.unique (hr'.remove keep ((hkeep wire hw hk).2 _ _ hr'))
    exact hr'
  refine ⟨fun wire hw => ?_, fun wire hw => ?_, h.distinct.sublist (List.filter_sublist.map _), ?_,
    ?_⟩
  · obtain ⟨hw, hk⟩ := List.mem_filter.mp hw
    obtain ⟨n, l, hr⟩ := h.sourceResolves wire hw
    exact ⟨n, l, hr.remove keep ((hkeep wire hw hk).1 _ _ hr)⟩
  · obtain ⟨hw, hk⟩ := List.mem_filter.mp hw
    obtain ⟨n, l, hr, hl⟩ := h.targetResolves wire hw
    exact ⟨n, l, hr.remove keep ((hkeep wire hw hk).2 _ _ hr), hl⟩
  · intro wire hw wire' hw' n l hn hr hr'
    refine h.rootAlone wire (List.mem_filter.mp hw).1 wire' (List.mem_filter.mp hw').1 n l ?_
      (target wire hw _ _ hr) (target wire' hw' _ _ hr')
    by_cases hd : dead n = true
    · simp [Wiring.remove, hd] at hn
    · simpa [Wiring.remove, hd] using hn
  · refine h.acyclic.mono fun a b => ?_
    rintro ⟨wire, hw, ⟨l, hs⟩, l', ht⟩
    exact ⟨wire, (List.mem_filter.mp hw).1, ⟨l, source wire hw _ _ hs⟩, l', target wire hw _ _ ht⟩

/-! ## Adding a wire -/

/-- Add a wire. -/
def connect (w : Wiring κ) (wire : Wire κ) : Wiring κ := { w with wires := w.wires ++ [wire] }

/-- The conditions on a new wire from `s` to `t` at the inner path `l`. -/
structure Connectable (w : Wiring κ) (wire : Wire κ) (s t l : List κ) : Prop where
  source : ∃ sl, w.Resolves wire.source.flat s sl
  target : w.Resolves wire.target.flat t l
  shallow : l.length ≤ 1
  free : ∀ wire' ∈ w.wires, wire'.target.flat ≠ wire.target.flat
  alone : w.node t = some true → ∀ wire' ∈ w.wires, ∀ l', w.Resolves wire'.target.flat t l' →
    (l = [] ↔ l' = [])
  forward : ¬ ReflTransGen w.Dep t s

theorem WellWired.connect {w : Wiring κ} (h : w.WellWired) {wire : Wire κ} {s t l : List κ}
    (hc : w.Connectable wire s t l) : (w.connect wire).WellWired := by
  have hmem : ∀ x ∈ (w.connect wire).wires, x ∈ w.wires ∨ x = wire := fun x hx => by
    rcases List.mem_append.mp hx with hx | hx
    · exact Or.inl hx
    · exact Or.inr (List.mem_singleton.mp hx)
  refine ⟨fun x hx => ?_, fun x hx => ?_, ?_, ?_, ?_⟩
  · rcases hmem x hx with hx | rfl
    · exact h.sourceResolves x hx
    · obtain ⟨sl, hs⟩ := hc.source
      exact ⟨s, sl, hs⟩
  · rcases hmem x hx with hx | rfl
    · exact h.targetResolves x hx
    · exact ⟨t, l, hc.target, hc.shallow⟩
  · show ((w.wires ++ [wire]).map fun wire => wire.target.flat).Nodup
    rw [List.map_append, List.nodup_append]
    refine ⟨h.distinct, by simp, fun a ha b hb hab => ?_⟩
    obtain ⟨x, hx, rfl⟩ := List.mem_map.mp ha
    rw [List.map_singleton, List.mem_singleton] at hb
    exact hc.free x hx (hab.trans hb)
  · intro x hx y hy n m hn hrx hry
    rcases hmem x hx with hx' | rfl
    · rcases hmem y hy with hy' | rfl
      · exact h.rootAlone x hx' y hy' n m hn hrx hry
      · obtain ⟨rfl, rfl⟩ := hc.target.unique hry
        exact (hc.alone hn x hx' [] hrx).mpr rfl
    · obtain ⟨rfl, rfl⟩ := hc.target.unique hrx
      rcases hmem y hy with hy' | rfl
      · exact (hc.alone hn y hy' m hry).mp rfl
      · exact (hc.target.unique hry).2.symm
  · refine h.acyclic.add_edge (a := s) (b := t) (fun a b => ?_) hc.forward
    rintro ⟨x, hx, ⟨sl, hs⟩, tl, ht⟩
    rcases hmem x hx with hx | rfl
    · exact Or.inl ⟨x, hx, ⟨sl, hs⟩, tl, ht⟩
    · obtain ⟨sl', hs'⟩ := hc.source
      exact Or.inr ⟨(hs.unique hs').1, (hc.target.unique ht).1.symm⟩

/-! ## Putting a node -/

/-- The node that had the paths of a new node before. -/
theorem Resolves.owner {w : Wiring κ} {n l p q : List κ} (h : w.Resolves (p ++ q) n l)
    (hp : n.length < p.length) : ∃ r, w.Resolves p n r := by
  have hn : n <+: p := List.prefix_of_prefix_length_le ⟨l, h.flat⟩ (List.prefix_append p q) hp.le
  exact Reads.of_prefix h hn (List.prefix_append p q)

section Put

variable [DecidableEq κ]

/-- Put a node at a path. -/
def put (w : Wiring κ) (p : List κ) (mark : Bool) : Wiring κ :=
  { w with node := fun q => if q = p then some mark else w.node q }

theorem stands_put {w : Wiring κ} {p q : List κ} {mark : Bool} :
    (w.put p mark).stands q = true ↔ w.stands q = true ∨ q = p := by
  by_cases hq : q = p <;> simp [stands, put, hq]

/-- A new node does not change how a path is read unless it stands further along it. -/
theorem Resolves.put {w : Wiring κ} {path n l p : List κ} (h : w.Resolves path n l) (mark : Bool)
    (hp : p <+: path → p.length ≤ n.length) : (w.put p mark).Resolves path n l :=
  h.of_accept (fun _ => stands_put) hp

/-- A new node takes over every path that it stands further along. -/
theorem resolves_put_new {w : Wiring κ} {n l p q : List κ} (h : w.Resolves (p ++ q) n l)
    (mark : Bool) (hp : n.length < p.length) : (w.put p mark).Resolves (p ++ q) p q := by
  refine ⟨fun h0 => by simp [h0] at hp, stands_put.mpr (Or.inr rfl), rfl, fun m hm hpre => ?_⟩
  rcases stands_put.mp hm with hm | rfl
  · exact (h.longest m hm hpre).trans hp.le
  · exact le_rfl

/-- The two readings of a path before and after a new node at `p`. -/
theorem Resolves.of_put {w : Wiring κ} {path n l p n' l' : List κ} {mark : Bool}
    (h : w.Resolves path n l) (h' : (w.put p mark).Resolves path n' l') :
    (n' = n ∧ l' = l) ∨ (n' = p ∧ path = p ++ l' ∧ n.length < p.length) := by
  by_cases hp : p <+: path ∧ n.length < p.length
  · obtain ⟨⟨q, rfl⟩, hlt⟩ := hp
    obtain ⟨rfl, rfl⟩ := h'.unique (resolves_put_new h mark hlt)
    exact Or.inr ⟨rfl, rfl, hlt⟩
  · exact Or.inl (h'.unique (h.put mark fun hpre => by
      by_contra hlt
      exact hp ⟨hpre, by omega⟩))

theorem exists_resolves_put {w : Wiring κ} {path n l : List κ} (h : w.Resolves path n l)
    (p : List κ) (mark : Bool) : ∃ n' l', (w.put p mark).Resolves path n' l' ∧
      (l.length ≤ 1 → l'.length ≤ 1) := by
  by_cases hp : p <+: path ∧ n.length < p.length
  · obtain ⟨⟨q, rfl⟩, hlt⟩ := hp
    refine ⟨p, q, resolves_put_new h mark hlt, fun hl => ?_⟩
    have := congrArg List.length h.flat
    simp only [List.length_append] at this
    omega
  · exact ⟨n, l, h.put mark fun hpre => by
      by_contra hlt
      exact hp ⟨hpre, by omega⟩, fun hl => hl⟩

/-- Creating a node keeps a wiring well formed, whatever wires it takes over: it takes over whole
targets, and depends on what their nodes depended on. -/
theorem WellWired.create {w : Wiring κ} (h : w.WellWired) {p : List κ} (mark : Bool)
    (hnew : w.node p = none) : (w.put p mark).WellWired := by
  have hp : w.stands p = false := by simp [stands, hnew]
  refine ⟨fun wire hw => ?_, fun wire hw => ?_, h.distinct, ?_, ?_⟩
  · obtain ⟨n, l, hr⟩ := h.sourceResolves wire hw
    obtain ⟨n', l', hr', -⟩ := exists_resolves_put hr p mark
    exact ⟨n', l', hr'⟩
  · obtain ⟨n, l, hr, hl⟩ := h.targetResolves wire hw
    obtain ⟨n', l', hr', hl'⟩ := exists_resolves_put hr p mark
    exact ⟨n', l', hr', hl' hl⟩
  · intro x hx y hy n l hn hrx hry
    obtain ⟨nx, lx, hx0, hlx⟩ := h.targetResolves x hx
    obtain ⟨ny, ly, hy0, hly⟩ := h.targetResolves y hy
    rcases hx0.of_put hrx with ⟨rfl, rfl⟩ | ⟨rfl, hxp, hltx⟩
    · rcases hy0.of_put hry with ⟨rfl, rfl⟩ | ⟨rfl, -, -⟩
      · have hne : n ≠ p := fun hnp => by rw [hnp] at hx0; exact absurd hx0.stands (by simp [hp])
        exact h.rootAlone x hx y hy n l (by simpa [put, hne] using hn) hx0 hy0
      · exact absurd hx0.stands (by simp [hp])
    · rcases hy0.of_put hry with ⟨rfl, rfl⟩ | ⟨-, hyp, hlty⟩
      · exact absurd hy0.stands (by simp [hp])
      · -- the new node takes over one step, so nothing is left of the target inside it
        have := congrArg List.length (hy0.flat.trans hyp)
        simp only [List.length_append] at this
        exact List.eq_nil_of_length_eq_zero (by omega)
  · classical
    -- the new node depends on what the node before it depended on
    let owner : List κ → List κ := fun q =>
      if hq : ∃ n r, w.Resolves q n r then hq.choose else q
    have howner : ∀ {q n r}, w.Resolves q n r → owner q = n := by
      intro q n r hr
      have hq : ∃ n r, w.Resolves q n r := ⟨n, r, hr⟩
      obtain ⟨r', hr'⟩ := hq.choose_spec
      simp only [owner, dif_pos hq]
      exact (hr'.unique hr).1
    have hread : ∀ {path n l n' l'}, w.Resolves path n l → (w.put p mark).Resolves path n' l' →
        owner n' = n := by
      intro path n l n' l' hr hr'
      rcases hr.of_put hr' with ⟨rfl, rfl⟩ | ⟨rfl, rfl, hlt⟩
      · exact howner (resolves_self hr.stands hr.nonempty)
      · obtain ⟨r, hr⟩ := hr.owner hlt
        exact howner hr
    refine h.acyclic.of_map owner fun a b => ?_
    rintro ⟨wire, hw, ⟨sl, hs⟩, tl, ht⟩
    obtain ⟨s, l, hs0⟩ := h.sourceResolves wire hw
    obtain ⟨t, l', ht0, -⟩ := h.targetResolves wire hw
    rw [hread hs0 hs, hread ht0 ht]
    exact ⟨wire, hw, ⟨l, hs0⟩, l', ht0⟩

/-- Replacing a node that no wire reaches. -/
theorem WellWired.replace {w : Wiring κ} (h : w.WellWired) {p : List κ} (mark : Bool)
    (hp : w.stands p = true) (hfree : ∀ wire ∈ w.wires, ∀ l, ¬ w.Resolves wire.target.flat p l) :
    (w.put p mark).WellWired := by
  have hstands : (w.put p mark).stands = w.stands := by
    funext q
    rw [Bool.eq_iff_iff, stands_put]
    exact ⟨fun hq => hq.elim id fun hqp => hqp ▸ hp, Or.inl⟩
  have hres : ∀ path n l, (w.put p mark).Resolves path n l ↔ w.Resolves path n l := by
    intro path n l
    unfold Resolves
    rw [hstands]
  refine ⟨?_, ?_, h.distinct, ?_, ?_⟩
  · intro wire hw
    simpa only [hres] using h.sourceResolves wire hw
  · intro wire hw
    simpa only [hres] using h.targetResolves wire hw
  · intro x hx y hy n l hn hrx hry
    rw [hres] at hrx hry
    have hne : n ≠ p := fun hnp => hfree x hx [] (hnp ▸ hrx)
    exact h.rootAlone x hx y hy n l (by simpa [put, hne] using hn) hrx hry
  · refine h.acyclic.mono fun a b => ?_
    rintro ⟨wire, hw, ⟨sl, hs⟩, tl, ht⟩
    exact ⟨wire, hw, ⟨sl, (hres ..).mp hs⟩, tl, (hres ..).mp ht⟩

end Put

/-! ## Copying a subtree -/

/-- The path that a path below `s` has in the copy at `t`. -/
def moved (s t p : List κ) : List κ := t ++ p.drop s.length

/-- The path in the original, when `q` lies in the copy. -/
def origin (s t q : List κ) : List κ := s ++ q.drop t.length

theorem moved_append (s t p : List κ) : moved s t (s ++ p) = t ++ p := by simp [moved]

theorem origin_append (s t p : List κ) : origin s t (t ++ p) = s ++ p := by simp [origin]

/-- Is `q` the path of a copied node? -/
def Copied (w : Wiring κ) (s t q : List κ) : Prop := t <+: q ∧ w.stands (origin s t q) = true

/-- Is a wire inside the subtree at `s`? -/
def Inside (s : List κ) (wire : Wire κ) : Prop :=
  s <+: wire.source.flat ∧ s <+: wire.target.flat

/-- `w'` is `w` with a copy of the nodes and the inner wires of the subtree at `s`, put at `t`. -/
structure IsCopy (w w' : Wiring κ) (s t : List κ) : Prop where
  copied : ∀ q, w.Copied s t q → w'.node q = w.node (origin s t q)
  other : ∀ q, ¬ w.Copied s t q → w'.node q = w.node q
  wires : ∃ f : Wire κ → Wire κ, ∃ inside : List (Wire κ), w'.wires = w.wires ++ inside.map f ∧
    inside.Sublist w.wires ∧ ∀ wire ∈ inside, Inside s wire ∧
      (f wire).source.flat = moved s t wire.source.flat ∧
      (f wire).target.flat = moved s t wire.target.flat

/-- The copied nodes stand at free paths, no wire ends at or below one of them, no node that stands
below one of them lies on the way of a copied wire, and the wires inside the subtree end in nodes of
the subtree. -/
structure Copyable (w : Wiring κ) (s t : List κ) : Prop where
  free : ∀ p, w.Copied s t p → w.stands p = false
  untargeted : ∀ p, w.Copied s t p → ∀ wire ∈ w.wires, ¬ p <+: wire.target.flat
  clear : ∀ p, w.Copied s t p → ∀ m, w.stands m = true → p <+: m → ∀ wire ∈ w.wires,
    Inside s wire → ¬ m <+: moved s t wire.source.flat ∧ ¬ m <+: moved s t wire.target.flat
  closed : ∀ wire ∈ w.wires, Inside s wire →
    (∀ n l, w.Resolves wire.source.flat n l → s <+: n) ∧
      ∀ n l, w.Resolves wire.target.flat n l → s <+: n

section Copy

variable {w w' : Wiring κ} {s t : List κ}

theorem IsCopy.stands (hw : w.IsCopy w' s t) {q : List κ} (hq : w'.stands q = true) :
    w.Copied s t q ∨ w.stands q = true := by
  by_cases hc : w.Copied s t q
  · exact Or.inl hc
  · rw [Wiring.stands, hw.other q hc] at hq
    exact Or.inr hq

theorem IsCopy.stands_old (hw : w.IsCopy w' s t) {q : List κ} (hq : ¬ w.Copied s t q) :
    w'.stands q = w.stands q := by
  unfold Wiring.stands
  rw [hw.other q hq]

theorem Copyable.not_copied (hc : w.Copyable s t) {q : List κ} (hq : w.stands q = true) :
    ¬ w.Copied s t q := by
  intro h
  exact absurd hq (by simp [hc.free q h])

/-- A path that no copied node lies on is read as before. -/
theorem IsCopy.resolves_old (hw : w.IsCopy w' s t) {path n l : List κ}
    (hunused : ∀ p, w.Copied s t p → ¬ p <+: path) (h : w.Resolves path n l) :
    w'.Resolves path n l := by
  have hn : ¬ w.Copied s t n := fun hc => hunused n hc ⟨l, h.flat⟩
  refine ⟨h.nonempty, (hw.stands_old hn).trans h.stands, h.flat, fun m hm hpre => ?_⟩
  rcases hw.stands hm with hc | hm
  · exact absurd hpre (hunused m hc)
  · exact h.longest m hm hpre

/-- Any other path is read as before or as a copied node. -/
theorem IsCopy.resolves_or_copied (hw : w.IsCopy w' s t) (hc : w.Copyable s t) {path n l : List κ}
    (h : w.Resolves path n l) : ∃ n' l', w'.Resolves path n' l' ∧
      (¬ w.Copied s t n' → n' = n ∧ l' = l) := by
  have hstands : w'.stands n = true := (hw.stands_old (hc.not_copied h.stands)).trans h.stands
  obtain ⟨n', l', hr⟩ := exists_reads hstands h.nonempty ⟨l, h.flat⟩
  refine ⟨n', l', hr, fun hn => ?_⟩
  have hn' : w.stands n' = true := (hw.stands_old hn).symm.trans hr.accepted
  have hlen : n'.length = n.length :=
    le_antisymm (h.longest n' hn' ⟨l', hr.flat⟩) (hr.longest n hstands ⟨l, h.flat⟩)
  exact List.append_inj (hr.flat.trans h.flat.symm) hlen

/-- A moved path is read as the moved node and the same inner path. -/
theorem IsCopy.resolves_moved (hw : w.IsCopy w' s t) (ht : t ≠ []) {path n l : List κ}
    (hclear : ∀ p, w.Copied s t p → ∀ m, w.stands m = true → p <+: m → ¬ m <+: moved s t path)
    (h : w.Resolves path n l) (hs : s <+: n) : w'.Resolves (moved s t path) (moved s t n) l := by
  obtain ⟨y, rfl⟩ := hs
  obtain rfl := h.flat
  have hcopied : w.Copied s t (t ++ y) := by
    refine ⟨List.prefix_append t y, ?_⟩
    rw [origin_append]
    exact h.stands
  rw [List.append_assoc, moved_append] at hclear
  rw [moved_append, List.append_assoc, moved_append]
  refine ⟨by simp [ht], ?_, by simp, fun m hm hpre => ?_⟩
  · show w'.stands (t ++ y) = true
    rw [Wiring.stands, hw.copied _ hcopied, origin_append]
    exact h.stands
  · by_contra hlt
    have hbelow : t ++ y <+: m := by
      refine List.prefix_of_prefix_length_le ?_ hpre (by omega)
      exact ⟨l, by simp⟩
    rcases hw.stands hm with ⟨-, hm⟩ | hm
    · obtain ⟨z, rfl⟩ := hbelow
      rw [List.append_assoc, origin_append] at hm
      have hz : y ++ z <+: y ++ l := by
        obtain ⟨u, hu⟩ := hpre
        exact ⟨u, (List.append_right_inj t).mp (by simpa using hu)⟩
      have := h.longest (s ++ (y ++ z)) hm (by
        rw [List.append_assoc]
        exact (List.prefix_append_right_inj s).mpr hz)
      simp only [List.length_append] at this hlt
      omega
    · exact hclear _ hcopied m hm hbelow hpre

theorem copied_moved {n : List κ} (hn : w.stands n = true) (hs : s <+: n) :
    w.Copied s t (moved s t n) := by
  obtain ⟨y, rfl⟩ := hs
  rw [moved_append]
  exact ⟨List.prefix_append t y, by rwa [origin_append]⟩

theorem origin_moved {n : List κ} (hs : s <+: n) : origin s t (moved s t n) = n := by
  obtain ⟨y, rfl⟩ := hs
  rw [moved_append, origin_append]

/-- Copying a subtree to a free place keeps a wiring well formed: the copy depends on nothing
outside it, its dependencies are those of the original, and nothing else is wired into it. -/
theorem WellWired.copy (h : w.WellWired) (hw : w.IsCopy w' s t) (hc : w.Copyable s t)
    (ht : t ≠ []) : w'.WellWired := by
  obtain ⟨f, inside, hwires, hsub, hinside⟩ := hw.wires
  have hmem : ∀ x ∈ w'.wires, x ∈ w.wires ∨ ∃ y ∈ inside, f y = x := fun x hx => by
    rw [hwires] at hx
    exact (List.mem_append.mp hx).imp id List.mem_map.mp
  -- how the ends of old and of moved wires are read
  have source_old : ∀ x ∈ w.wires, ∃ n l, w.Resolves x.source.flat n l ∧
      ∃ n' l', w'.Resolves x.source.flat n' l' ∧ (¬ w.Copied s t n' → n' = n ∧ l' = l) :=
    fun x hx => by
      obtain ⟨n, l, hr⟩ := h.sourceResolves x hx
      exact ⟨n, l, hr, hw.resolves_or_copied hc hr⟩
  have target_old : ∀ x ∈ w.wires, ∃ n l, w.Resolves x.target.flat n l ∧ l.length ≤ 1 ∧
      w'.Resolves x.target.flat n l := fun x hx => by
    obtain ⟨n, l, hr, hl⟩ := h.targetResolves x hx
    exact ⟨n, l, hr, hl, hw.resolves_old (fun p hp => hc.untargeted p hp x hx) hr⟩
  have source_moved : ∀ y ∈ inside, ∃ n l, w.Resolves y.source.flat n l ∧ s <+: n ∧
      w'.Resolves (f y).source.flat (moved s t n) l := fun y hy => by
    have hy0 := hsub.subset hy
    obtain ⟨n, l, hr⟩ := h.sourceResolves y hy0
    have hs := (hc.closed y hy0 (hinside y hy).1).1 n l hr
    refine ⟨n, l, hr, hs, (hinside y hy).2.1 ▸ hw.resolves_moved ht ?_ hr hs⟩
    exact fun p hp m hm hpm => (hc.clear p hp m hm hpm y hy0 (hinside y hy).1).1
  have target_moved : ∀ y ∈ inside, ∃ n l, w.Resolves y.target.flat n l ∧ l.length ≤ 1 ∧ s <+: n ∧
      w'.Resolves (f y).target.flat (moved s t n) l := fun y hy => by
    have hy0 := hsub.subset hy
    obtain ⟨n, l, hr, hl⟩ := h.targetResolves y hy0
    have hs := (hc.closed y hy0 (hinside y hy).1).2 n l hr
    refine ⟨n, l, hr, hl, hs, (hinside y hy).2.2 ▸ hw.resolves_moved ht ?_ hr hs⟩
    exact fun p hp m hm hpm => (hc.clear p hp m hm hpm y hy0 (hinside y hy).1).2
  refine ⟨fun x hx => ?_, fun x hx => ?_, ?_, ?_, ?_⟩
  · rcases hmem x hx with hx | ⟨y, hy, rfl⟩
    · obtain ⟨-, -, -, n, l, hr, -⟩ := source_old x hx
      exact ⟨n, l, hr⟩
    · obtain ⟨n, l, -, -, hr⟩ := source_moved y hy
      exact ⟨_, l, hr⟩
  · rcases hmem x hx with hx | ⟨y, hy, rfl⟩
    · obtain ⟨n, l, -, hl, hr⟩ := target_old x hx
      exact ⟨n, l, hr, hl⟩
    · obtain ⟨n, l, -, hl, -, hr⟩ := target_moved y hy
      exact ⟨_, l, hr, hl⟩
  · rw [hwires, List.map_append, List.nodup_append]
    refine ⟨h.distinct, ?_, ?_⟩
    · -- moving is injective on the paths below `s`
      rw [List.map_map]
      refine List.Nodup.map_on (fun x hx y hy hxy => ?_) (h.distinct.of_map.sublist hsub)
      refine List.inj_on_of_nodup_map h.distinct (hsub.subset hx) (hsub.subset hy) ?_
      obtain ⟨u, hu⟩ := (hinside x hx).1.2
      obtain ⟨v, hv⟩ := (hinside y hy).1.2
      simp only [Function.comp_apply, (hinside x hx).2.2, (hinside y hy).2.2, ← hu, ← hv,
        moved_append] at hxy
      rw [← hu, ← hv, List.append_cancel_left hxy]
    · intro a ha b hb hab
      obtain ⟨x, hx, rfl⟩ := List.mem_map.mp ha
      obtain ⟨z, hz, rfl⟩ := List.mem_map.mp hb
      obtain ⟨y, hy, rfl⟩ := List.mem_map.mp hz
      obtain ⟨n, l, hr, -, hs, hr'⟩ := target_moved y hy
      refine hc.untargeted _ (copied_moved hr.stands hs) x hx ?_
      rw [hab]
      exact ⟨l, hr'.flat⟩
  · intro x hx y hy n l hn hrx hry
    rcases hmem x hx with hxo | ⟨x, hxi, rfl⟩
    · obtain ⟨nx, lx, hx0, -, hx1⟩ := target_old x hxo
      obtain ⟨rfl, rfl⟩ := hrx.unique hx1
      rw [hw.other _ (hc.not_copied hx0.stands)] at hn
      rcases hmem y hy with hyo | ⟨y, hyi, rfl⟩
      · obtain ⟨ny, ly, hy0, -, hy1⟩ := target_old y hyo
        obtain ⟨rfl, rfl⟩ := hry.unique hy1
        exact h.rootAlone x hxo y hyo _ _ hn hx0 hy0
      · obtain ⟨ny, ly, hy0, -, hs, hy1⟩ := target_moved y hyi
        obtain ⟨rfl, -⟩ := hry.unique hy1
        exact absurd (copied_moved hy0.stands hs) (hc.not_copied hx0.stands)
    · obtain ⟨nx, lx, hx0, -, hsx, hx1⟩ := target_moved x hxi
      obtain ⟨rfl, rfl⟩ := hrx.unique hx1
      rw [hw.copied _ (copied_moved hx0.stands hsx), origin_moved hsx] at hn
      rcases hmem y hy with hyo | ⟨y, hyi, rfl⟩
      · obtain ⟨ny, ly, hy0, -, hy1⟩ := target_old y hyo
        obtain ⟨rfl, -⟩ := hry.unique hy1
        exact absurd (copied_moved hx0.stands hsx) (hc.not_copied hy0.stands)
      · obtain ⟨ny, ly, hy0, -, hsy, hy1⟩ := target_moved y hyi
        obtain ⟨hne, rfl⟩ := hry.unique hy1
        have hxy : nx = ny := by
          rw [← origin_moved (t := t) hsx, ← origin_moved (t := t) hsy, hne]
        subst hxy
        exact h.rootAlone x (hsub.subset hxi) y (hsub.subset hyi) nx _ hn hx0 hy0
  · -- nothing leads into the copy from outside it, and nothing outside it is new
    have inside_dep : ∀ a b, w.Copied s t b → w'.Dep a b →
        w.Copied s t a ∧ w.Dep (origin s t a) (origin s t b) := by
      rintro a b hb ⟨x, hx, ⟨sl, hs⟩, tl, ht⟩
      rcases hmem x hx with hx | ⟨y, hy, rfl⟩
      · obtain ⟨m, k, ht0, -, ht1⟩ := target_old x hx
        obtain ⟨rfl, rfl⟩ := ht.unique ht1
        exact absurd hb (hc.not_copied ht0.stands)
      · obtain ⟨n, l, hs0, hsn, hs1⟩ := source_moved y hy
        obtain ⟨m, k, ht0, -, hsm, ht1⟩ := target_moved y hy
        obtain ⟨rfl, rfl⟩ := hs.unique hs1
        obtain ⟨rfl, rfl⟩ := ht.unique ht1
        refine ⟨copied_moved hs0.stands hsn, ?_⟩
        rw [origin_moved hsn, origin_moved hsm]
        exact ⟨y, hsub.subset hy, ⟨_, hs0⟩, _, ht0⟩
    have outside_dep : ∀ a b, ¬ w.Copied s t a → w'.Dep a b → ¬ w.Copied s t b ∧ w.Dep a b := by
      rintro a b ha ⟨x, hx, ⟨sl, hs⟩, tl, ht⟩
      rcases hmem x hx with hx | ⟨y, hy, rfl⟩
      · obtain ⟨n, l, hs0, n', l', hs1, hn⟩ := source_old x hx
        obtain ⟨m, k, ht0, -, ht1⟩ := target_old x hx
        obtain ⟨rfl, rfl⟩ := hs.unique hs1
        obtain ⟨rfl, rfl⟩ := ht.unique ht1
        obtain ⟨rfl, rfl⟩ := hn ha
        exact ⟨hc.not_copied ht0.stands, x, hx, ⟨_, hs0⟩, _, ht0⟩
      · obtain ⟨n, l, hs0, hsn, hs1⟩ := source_moved y hy
        obtain ⟨rfl, rfl⟩ := hs.unique hs1
        exact absurd (copied_moved hs0.stands hsn) ha
    intro a ha
    by_cases hca : w.Copied s t a
    · exact h.acyclic.of_backward (origin s t) inside_dep a hca ha
    · exact h.acyclic.of_forward id outside_dep a hca ha

end Copy

end Wiring
