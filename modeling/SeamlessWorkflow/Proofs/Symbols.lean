import SeamlessWorkflow.Proofs.UpheldTurns

/-!
# The symbols of anonymous links

The table of symbols gives every recipe one symbol and every symbol to one recipe, and it only
grows. The chain of an edge starts at a named node, and each of its further links reads the symbol
of the one before.
-/

namespace SeamlessWorkflow

open Program

abbrev SymbolTable := AList (fun _ : Recipe => String)

/-- Every entry of a table is one of a later table. -/
def Extends (table table' : SymbolTable) : Prop :=
  ∀ recipe symbol, table.lookup recipe = some symbol → table'.lookup recipe = some symbol

/-- No symbol is given to two recipes. -/
def OneToOne (table : SymbolTable) : Prop :=
  ∀ r r' symbol, table.lookup r = some symbol → table.lookup r' = some symbol → r = r'

/-- The links of a chain are registered, and lead from one source to another: each link reads the
symbol of the one before. -/
def Links (table : SymbolTable) : RecipeSource → List Recipe → RecipeSource → Prop
  | source, [], final => source = final
  | source, recipe :: chain, final => recipe.source = source ∧
    ∃ symbol, table.lookup recipe = some symbol ∧ Links table (.symbol symbol) chain final

/-- The chain of an edge starts at a node, and all of it is registered. -/
def Edge.Linked (table : SymbolTable) (edge : Edge) : Prop :=
  ∃ path final, Links table (.node path) edge.sourceChain final

theorem Extends.refl (table : SymbolTable) : Extends table table := fun _ _ h => h

theorem Extends.trans {a b c : SymbolTable} (h : Extends a b) (h' : Extends b c) : Extends a c :=
  fun recipe symbol hr => h' recipe symbol (h recipe symbol hr)

theorem Links.extends {table table' : SymbolTable} (he : Extends table table') {chain : List Recipe} :
    ∀ {source final : RecipeSource}, Links table source chain final →
      Links table' source chain final := by
  induction chain with
  | nil => exact fun h => h
  | cons recipe chain ih =>
    rintro source final ⟨hs, symbol, hl, hc⟩
    exact ⟨hs, symbol, he _ _ hl, ih hc⟩

theorem Links.append {table : SymbolTable} {first second : List Recipe} {final : RecipeSource} :
    ∀ {source middle : RecipeSource}, Links table source first middle →
      Links table middle second final → Links table source (first ++ second) final := by
  induction first with
  | nil =>
    rintro source middle rfl h
    exact h
  | cons recipe first ih =>
    rintro source middle ⟨hs, symbol, hl, hc⟩ h
    exact ⟨hs, symbol, hl, ih hc h⟩

/-- A chain all of whose links are registered already is linked. -/
theorem Links.single {table : SymbolTable} {recipe : Recipe} {symbol : String}
    (h : table.lookup recipe = some symbol) :
    Links table recipe.source [recipe] (.symbol symbol) := ⟨rfl, symbol, h, rfl⟩

theorem Edge.Linked.extends {table table' : SymbolTable} (he : Extends table table') {edge : Edge}
    (h : edge.Linked table) : edge.Linked table' := by
  obtain ⟨path, final, hl⟩ := h
  exact ⟨path, final, hl.extends he⟩

/-- Every link of a linked chain is registered, and what it reads is a node or a symbol in use. -/
theorem Links.mem {table : SymbolTable} {chain : List Recipe} {recipe : Recipe} :
    ∀ {source final : RecipeSource}, Links table source chain final → recipe ∈ chain →
      (∃ symbol, table.lookup recipe = some symbol) ∧
        (recipe.source = source ∨
          ∃ before ∈ chain, ∃ symbol, table.lookup before = some symbol ∧
            recipe.source = .symbol symbol) := by
  induction chain with
  | nil => exact fun _ hm => absurd hm List.not_mem_nil
  | cons first chain ih =>
    rintro source final ⟨hs, symbol, hl, hc⟩ hm
    rcases List.mem_cons.mp hm with rfl | hm
    · exact ⟨⟨symbol, hl⟩, Or.inl hs⟩
    · obtain ⟨hr, hsource⟩ := ih hc hm
      refine ⟨hr, Or.inr ?_⟩
      rcases hsource with hsource | ⟨before, hb, symbol', hl', hsource⟩
      · exact ⟨first, List.mem_cons_self .., symbol, hl, hsource⟩
      · exact ⟨before, List.mem_cons_of_mem _ hb, symbol', hl', hsource⟩

/-! ## Assigning symbols -/

/-- The table of a graph grows, and stays one to one. -/
structure Interns (g g' : ContextGraph) : Prop where
  grows : Extends g.symbols g'.symbols
  oneToOne : OneToOne g.symbols → OneToOne g'.symbols

theorem Interns.refl (g : ContextGraph) : Interns g g := ⟨.refl _, id⟩

theorem Interns.trans {a b c : ContextGraph} (h : Interns a b) (h' : Interns b c) : Interns a c :=
  ⟨h.grows.trans h'.grows, fun ho => h'.oneToOne (h.oneToOne ho)⟩

theorem Interns.of_eq {g g' : ContextGraph} (h : g'.symbols = g.symbols) : Interns g g' := by
  refine ⟨?_, ?_⟩
  · rw [h]; exact .refl _
  · rw [h]; exact id

/-- The symbols that `assign_symbol` tries. -/
def symbolName (base : String) (suffix : Nat) : String :=
  if suffix = 0 then base else base ++ "-" ++ toString suffix

theorem symbolName_injective (base : String) : Function.Injective (symbolName base) := by
  have hlonger : ∀ n : Nat, base ≠ base ++ "-" ++ toString n := by
    intro n h
    have := congrArg String.length h
    rw [String.length_append, String.length_append] at this
    have : "-".length = 1 := rfl
    omega
  intro i j h
  unfold symbolName at h
  split at h <;> split at h
  · omega
  · exact absurd h (hlonger j)
  · exact absurd h.symm (hlonger i)
  · exact Dict.toString_injective ((String.append_right_inj _).mp h)

/-- A recipe gets a symbol that no other recipe has. -/
theorem assignSymbol_interns (env : Substrate) (g : ContextGraph) (recipe : Recipe) :
    Interns g (g.assignSymbol env recipe).2 ∧
      (g.assignSymbol env recipe).2.symbols.lookup recipe =
        some (g.assignSymbol env recipe).1 := by
  unfold ContextGraph.assignSymbol
  cases hr : g.symbols.lookup recipe with
  | some symbol => exact ⟨.refl g, hr⟩
  | none =>
    dsimp only
    set used := g.symbols.entries.map fun entry => entry.2
    set symbol := Dict.firstFree (fun candidate => used.contains candidate)
      (symbolName (env.symbolBase recipe)) (used.length + 1) 0 with hsymbol
    have hfree : used.contains symbol = false :=
      Dict.firstFree_free (symbolName_injective _) (fun a ha => by simpa using ha)
        (Nat.lt_succ_self used.length) 0
    have hnew : ∀ r s, g.symbols.lookup r = some s → s ≠ symbol := by
      intro r s hl he
      have hm : s ∈ used := List.mem_map.mpr ⟨⟨r, s⟩, AList.mem_lookup_iff.mp hl, rfl⟩
      rw [he] at hm
      simp only [List.contains_eq_mem, decide_eq_false_iff_not] at hfree
      exact hfree hm
    have hlookup : ∀ r s, (g.symbols.insert recipe symbol).lookup r = some s →
        r = recipe ∧ s = symbol ∨ r ≠ recipe ∧ g.symbols.lookup r = some s := by
      intro r s hl
      by_cases he : r = recipe
      · subst he
        rw [AList.lookup_insert] at hl
        exact Or.inl ⟨rfl, (Option.some.inj hl).symm⟩
      · rw [AList.lookup_insert_ne he] at hl
        exact Or.inr ⟨he, hl⟩
    refine ⟨⟨fun r s hl => ?_, fun ho r r' s hl hl' => ?_⟩, AList.lookup_insert _⟩
    · have he : r ≠ recipe := by
        rintro rfl
        rw [hr] at hl
        cases hl
      exact (AList.lookup_insert_ne he).trans hl
    · rcases hlookup r s hl with ⟨hr, hs⟩ | ⟨-, hold⟩ <;>
        rcases hlookup r' s hl' with ⟨hr', hs'⟩ | ⟨-, hold'⟩
      · exact hr.trans hr'.symm
      · exact absurd hs (hnew _ _ hold')
      · exact absurd hs' (hnew _ _ hold)
      · exact ho r r' s hold hold'

/-- A chain of links gets its symbols in order. -/
theorem assignChainFrom_interns (env : Substrate) (links : List Link) :
    ∀ (g : ContextGraph) (source : RecipeSource),
      Interns g (g.assignChainFrom env source links).2 ∧
        ∃ final, Links (g.assignChainFrom env source links).2.symbols source
          (g.assignChainFrom env source links).1 final := by
  induction links with
  | nil => exact fun g source => ⟨.refl g, source, rfl⟩
  | cons link links ih =>
    intro g source
    obtain ⟨celltype, path⟩ := link
    obtain ⟨hfirst, hlookup⟩ := assignSymbol_interns env g ⟨source, celltype, path⟩
    obtain ⟨hrest, final, hlinks⟩ := ih (g.assignSymbol env ⟨source, celltype, path⟩).2
      (.symbol (g.assignSymbol env ⟨source, celltype, path⟩).1)
    refine ⟨hfirst.trans hrest, final, rfl, _, ?_, hlinks⟩
    exact hrest.grows _ _ hlookup

/-- The symbols of a chain whose links may be new. -/
theorem assignSymbols_interns (env : Substrate) (chain : List Recipe) :
    ∀ g : ContextGraph,
      Interns g (chain.foldl (fun g recipe => (g.assignSymbol env recipe).2) g) ∧
        ∀ recipe ∈ chain, ∃ symbol,
          (chain.foldl (fun g recipe => (g.assignSymbol env recipe).2) g).symbols.lookup recipe =
            some symbol := by
  induction chain with
  | nil => exact fun g => ⟨.refl g, fun _ hm => absurd hm List.not_mem_nil⟩
  | cons first chain ih =>
    intro g
    obtain ⟨hfirst, hlookup⟩ := assignSymbol_interns env g first
    obtain ⟨hrest, hmem⟩ := ih (g.assignSymbol env first).2
    refine ⟨hfirst.trans hrest, fun recipe hm => ?_⟩
    rcases List.mem_cons.mp hm with rfl | hm
    · exact ⟨_, hrest.grows _ _ hlookup⟩
    · exact hmem recipe hm

/-- A chain that is linked up to its last link, which may be new. -/
def Edge.Prelinked (table : SymbolTable) (edge : Edge) : Prop :=
  ∃ path chain middle, Links table (.node path) chain middle ∧
    (edge.sourceChain = chain ∨ ∃ celltype rest, edge.sourceChain = chain ++ [⟨middle, celltype, rest⟩])

theorem prelinked_nil (table : SymbolTable) {edge : Edge} (h : edge.sourceChain = []) :
    edge.Prelinked table := ⟨[], [], .node [], rfl, Or.inl h⟩

theorem Edge.Prelinked.extends {table table' : SymbolTable} (he : Extends table table') {edge : Edge}
    (h : edge.Prelinked table) : edge.Prelinked table' := by
  obtain ⟨path, chain, middle, hl, hc⟩ := h
  exact ⟨path, chain, middle, hl.extends he, hc⟩

/-- Every edge gets the symbols of its anonymous links. -/
theorem registerEdgeSymbols_linked {env : Substrate} {g g' : ContextGraph} {edge edge' : Edge}
    (hp : edge.Prelinked g.symbols) (h : g.registerEdgeSymbols env edge = some (edge', g')) :
    Interns g g' ∧ edge'.Linked g'.symbols := by
  unfold ContextGraph.registerEdgeSymbols at h
  split at h
  · obtain ⟨rfl, rfl⟩ := Prod.mk.injEq .. |>.mp (Option.some.inj h)
    obtain ⟨hi, hmem⟩ := assignSymbols_interns env edge.sourceChain g
    obtain ⟨path, chain, middle, hl, hc⟩ := hp
    refine ⟨hi, path, ?_⟩
    rcases hc with hc | ⟨celltype, rest, hc⟩
    · exact ⟨middle, hc ▸ hl.extends hi.grows⟩
    · obtain ⟨symbol, hs⟩ := hmem ⟨middle, celltype, rest⟩ (by rw [hc]; simp)
      refine ⟨.symbol symbol, ?_⟩
      generalize edge.sourceChain.foldl _ g = registered at hs hi
      rw [hc]
      exact (hl.extends hi.grows).append (Links.single hs)
  · split at h
    · exact absurd h (by simp)
    · rename_i hchain _ sourceNode localPath _
      have hchain : edge.sourceChain = [] := by simpa using hchain
      dsimp only at h
      split at h
      · obtain ⟨rfl, rfl⟩ := Prod.mk.injEq .. |>.mp (Option.some.inj h)
        refine ⟨.refl g, sourceNode, .node sourceNode, ?_⟩
        rw [hchain]
        rfl
      · obtain ⟨rfl, rfl⟩ := Prod.mk.injEq .. |>.mp (Option.some.inj h)
        obtain ⟨hi, final, hl⟩ := assignChainFrom_interns env _ g (.node sourceNode)
        exact ⟨hi, sourceNode, final, hl⟩

end SeamlessWorkflow
