import SeamlessWorkflow.Context.PathText
import Mathlib.Data.List.Induction

/-!
# Path strings are read back

What `_parse_path_string` reads of the text that `_path_string` writes: the path, but for the keys that
are written as attribute steps and are not names that Python leaves alone.
-/

namespace SeamlessWorkflow

open PyText

/-- The text between the brackets of a subscript. -/
inductive SubscriptText (t : Tables) : List Char → Component → Prop
  | key {name : String} {text : List Char} : t.isIdentifier name.toList = false →
      StringText text name.toList → SubscriptText t text (.key name)
  | index {i : Int} {text : List Char} : IntText text i → SubscriptText t text (.index i)
  | slice {start stop step : Option Int} {text : List Char} :
      SliceText text start stop step → SubscriptText t text (.slice start stop step)

/-- The text of one component: an identifier is an attribute step, and every other component is a
subscript by a literal. -/
inductive StepText (t : Tables) : List Char → Component → Prop
  | attr {name : String} :
      t.isIdentifier name.toList = true → StepText t ('.' :: name.toList) (.key name)
  | subscript {text : List Char} {k : Component} :
      SubscriptText t text k → StepText t ('[' :: (text ++ [']'])) k

/-- The writers append the text of a component. The first attribute step may be written without its
dot. -/
structure PathWriter.Writes (t : Tables) (w : PathWriter) : Prop where
  item : ∀ path k, k.isSlice = false → ∃ text, StepText t text k ∧
    ((w.appendItem path k).toList = path.toList ++ text ∨
      path = "" ∧ '.' :: (w.appendItem path k).toList = text)
  slice : ∀ path start stop step, ∃ text, StepText t text (.slice start stop step) ∧
    (w.appendSlice path start stop step).toList = path.toList ++ text

/-- What is read of a component: a keyword is no attribute, and another name is normalized. -/
def reads (t : Tables) : Component → Option Component
  | .key name =>
    if t.isIdentifier name.toList then
      if name ∈ keywords then none else some (.key (t.normalize name.toList))
    else some (.key name)
  | k => some k

variable {t : Tables}

theorem reads_identifier {name : String} (h : t.isIdentifier name.toList = true) :
    reads t (.key name) =
      if name ∈ keywords then none else some (.key (t.normalize name.toList)) := if_pos h

theorem reads_quoted {name : String} (h : t.isIdentifier name.toList = false) :
    reads t (.key name) = some (.key name) := if_neg (by simp [h])

/-! ## Reading the steps -/

theorem StepText.first {text : List Char} {k : Component} (h : StepText t text k) :
    ∃ rest, text = '.' :: rest ∨ text = '[' :: rest := by
  cases h with
  | attr => exact ⟨_, Or.inl rfl⟩
  | subscript => exact ⟨_, Or.inr rfl⟩

theorem steps_first {texts : List (List Char)} {path : Path}
    (h : List.Forall₂ (StepText t) texts path) :
    texts.flatten = [] ∧ path = [] ∨
      ∃ rest, texts.flatten = '.' :: rest ∨ texts.flatten = '[' :: rest := by
  cases h with
  | nil => exact Or.inl ⟨rfl, rfl⟩
  | cons hstep hsteps =>
    obtain ⟨rest, rfl | rfl⟩ := hstep.first
    · exact Or.inr ⟨_, Or.inl rfl⟩
    · exact Or.inr ⟨_, Or.inr rfl⟩

/-- A name ends before the next step. -/
theorem steps_endName {texts : List (List Char)} {path : Path}
    (h : List.Forall₂ (StepText t) texts path) :
    ∀ c ∈ texts.flatten.head?, isNameChar c = false := by
  rcases steps_first h with ⟨hnil, -⟩ | ⟨rest, hdot | hbracket⟩
  · rw [hnil]
    simp
  · rw [hdot]
    rintro _ ⟨⟩
    decide
  · rw [hbracket]
    rintro _ ⟨⟩
    decide

theorem slicePart_of_eval {e : Option Expr} {b : Option Int}
    (h : boundEval e = some (.ofBound b)) : slicePart e = some b := by
  unfold slicePart
  rw [h]
  cases b <;> rfl

theorem components_attribute {e : Expr} {p : Path} (h : components e = some p) (name : String) :
    components (.attribute e name) = some (p ++ [.key name]) := by
  rw [components, h]
  rfl

theorem components_subscript {e index : Expr} {p : Path} {k : Component}
    (h : components e = some p) (hk : subscriptComponent index = some k) :
    components (.subscript e index) = some (p ++ [k]) := by
  rw [components, h, Option.bind_some, hk]
  rfl

theorem subscriptComponent_int {e : Expr} {i : Int} (h : literalEval e = some (.int i)) :
    subscriptComponent e = some (.index i) := by
  unfold subscriptComponent
  split
  · cases h
  · rw [h]

/-- The subscript that is written for a component is read as that component. -/
theorem SubscriptText.read {text : List Char} {k : Component} (h : SubscriptText t text k)
    (rest : List Char) :
    reads t k = some k ∧ ∃ e, readIndex (text ++ ']' :: rest) = some (e, ']' :: rest) ∧
      subscriptComponent e = some k := by
  cases h with
  | key hname htext =>
    refine ⟨?_, _, readIndex_string htext rest, ?_⟩
    · exact reads_quoted hname
    · rw [String.ofList_toList]
      rfl
  | index hi =>
    obtain ⟨e, hread, heval⟩ := readIndex_int hi rest
    exact ⟨rfl, e, hread, subscriptComponent_int heval⟩
  | slice hslice =>
    obtain ⟨lower, upper, step, hread, ha, hb, hc⟩ := readIndex_slice hslice rest
    refine ⟨rfl, _, hread, ?_⟩
    unfold subscriptComponent
    dsimp only
    rw [slicePart_of_eval ha, slicePart_of_eval hb, slicePart_of_eval hc]
    rfl

theorem mapM_reads_cons (k : Component) (path : Path) (p : Path) :
    ((k :: path).mapM (reads t)).map (p ++ ·) =
      (reads t k).bind fun k' => (path.mapM (reads t)).map (p ++ [k'] ++ ·) := by
  rw [List.mapM_cons]
  cases reads t k with
  | none => rfl
  | some k' => cases path.mapM (reads t) <;> simp

/-- The steps of a path are read one after the other. -/
theorem readTrailers_steps {texts : List (List Char)} {path : Path}
    (h : List.Forall₂ (StepText t) texts path) :
    ∀ {e : Expr} {p : Path} {fuel : Nat}, components e = some p → texts.flatten.length ≤ fuel →
      (readTrailers t fuel e texts.flatten).bind components =
        (path.mapM (reads t)).map (p ++ ·) := by
  induction h with
  | nil =>
    intro e p fuel he _
    cases fuel <;> simp [readTrailers, he]
  | @cons _ _ texts path hstep hsteps ih =>
    intro e p fuel he hfuel
    rw [mapM_reads_cons]
    cases hstep with
    | @attr name hname =>
      rw [List.flatten_cons, List.cons_append] at hfuel ⊢
      rw [List.length_cons, List.length_append] at hfuel
      obtain ⟨fuel, rfl⟩ := Nat.exists_eq_succ_of_ne_zero (n := fuel) (by omega)
      rw [readTrailers, Tables.readName_identifier hname (steps_endName hsteps),
        reads_identifier hname, String.ofList_toList]
      split
      · rfl
      · exact ih (components_attribute he _) (by omega)
    | @subscript text k hsub =>
      rw [List.flatten_cons, List.cons_append, List.append_assoc, List.singleton_append] at hfuel ⊢
      rw [List.length_cons, List.length_append, List.length_cons] at hfuel
      obtain ⟨fuel, rfl⟩ := Nat.exists_eq_succ_of_ne_zero (n := fuel) (by omega)
      obtain ⟨hreads, index, hread, hk⟩ := hsub.read texts.flatten
      rw [readTrailers, hread, hreads, Option.bind_some, Option.bind_some]
      exact ih (components_subscript he hk) (by omega)

/-! ## Whole paths -/

/-- A text spells a path: it is made up of the texts of its components, but for the dot in front of
the first one. -/
def Spells (t : Tables) (text : List Char) (path : Path) : Prop :=
  ∃ texts, List.Forall₂ (StepText t) texts path ∧
    (text = texts.flatten ∨ '.' :: text = texts.flatten)

theorem StepText.ne_dot {text : List Char} {k : Component} (h : StepText t text k) : text ≠ ['.'] := by
  cases h with
  | attr hname =>
    intro heq
    rw [(List.cons.inj heq).2] at hname
    cases hname
  | subscript =>
    intro heq
    cases heq

/-- Only the empty path is spelled by the empty text. -/
theorem Spells.nil {path : Path} (h : Spells t [] path) : path = [] := by
  obtain ⟨texts, hsteps, htext⟩ := h
  cases hsteps with
  | nil => rfl
  | cons hstep hsteps =>
    exfalso
    obtain ⟨rest, hfirst⟩ := hstep.first
    rw [List.flatten_cons] at htext
    rcases htext with htext | htext
    · rcases hfirst with rfl | rfl <;> cases htext
    · rcases hfirst with rfl | rfl
      · obtain ⟨hrest, -⟩ := List.append_eq_nil_iff.mp (List.cons.inj htext).2.symm
        exact hstep.ne_dot (by rw [hrest])
      · cases htext

theorem Spells.snoc {text step : List Char} {path : Path} {k : Component} (h : Spells t text path)
    (hstep : StepText t step k) : Spells t (text ++ step) (path ++ [k]) := by
  obtain ⟨texts, hsteps, htext⟩ := h
  refine ⟨texts ++ [step], List.rel_append hsteps (.cons hstep .nil), ?_⟩
  rw [List.flatten_append, List.flatten_singleton, ← List.cons_append]
  exact htext.imp (congrArg (· ++ step)) (congrArg (· ++ step))

theorem spells_append {w : PathWriter} (hw : w.Writes t) {text : String} {path : Path}
    (h : Spells t text.toList path) (k : Component) :
    Spells t (w.append text k).toList (path ++ [k]) := by
  have hitem : k.isSlice = false → w.append text k = w.appendItem text k := by
    intro hk
    cases k with
    | key | index => rfl
    | slice => cases hk
  cases hk : k.isSlice with
  | true =>
    cases k with
    | key | index => cases hk
    | slice start stop step =>
      obtain ⟨step, hstep, heq⟩ := hw.slice text start stop step
      show Spells t (w.appendSlice text start stop _).toList _
      rw [heq]
      exact h.snoc hstep
  | false =>
    rw [hitem hk]
    obtain ⟨step, hstep, heq | ⟨rfl, heq⟩⟩ := hw.item text k hk
    · rw [heq]
      exact h.snoc hstep
    · obtain rfl := h.nil
      exact ⟨[step], .cons hstep .nil, Or.inr (by simpa using heq)⟩

theorem spells_pathString {w : PathWriter} (hw : w.Writes t) (path : Path) :
    Spells t (pathString w path).toList path := by
  unfold pathString
  induction path using List.reverseRecOn with
  | nil => exact ⟨[], .nil, Or.inl rfl⟩
  | append_singleton path k ih =>
    rw [List.foldl_append]
    exact spells_append hw ih k

/-- An identifier begins neither like an attribute step nor like a subscript. -/
theorem identifier_first {name : List Char} (h : t.isIdentifier name = true) :
    ∃ c cs, name = c :: cs ∧ c ≠ '.' ∧ c ≠ '[' := by
  cases name with
  | nil => cases h
  | cons c cs =>
    refine ⟨c, cs, rfl, ?_, ?_⟩
    all_goals
      rintro rfl
      have hname := Tables.isNameChar_of_isIdentifier h _ (List.mem_cons_self ..)
      revert hname
      decide

/-- The dot of a first attribute step is put back. -/
theorem relativePath_eq {text : List Char} {texts : List (List Char)} {path : Path}
    (hsteps : List.Forall₂ (StepText t) texts path) (hne : text ≠ [])
    (h : text = texts.flatten ∨ '.' :: text = texts.flatten) :
    relativePath text = texts.flatten := by
  rcases h with h | h
  · rcases steps_first hsteps with ⟨hnil, -⟩ | ⟨rest, hdot | hbracket⟩
    · exact absurd (h.trans hnil) hne
    · rw [h, hdot, relativePath]
    · rw [h, hbracket, relativePath]
  · cases hsteps with
    | nil => cases h
    | cons hstep _ =>
      rw [List.flatten_cons] at h ⊢
      cases hstep with
      | attr hname =>
        obtain ⟨c, cs, hfirst, hdot, hbracket⟩ := identifier_first hname
        rw [hfirst, List.cons_append] at h ⊢
        rw [(List.cons.inj h).2, List.cons_append, relativePath]
        · exact fun _ heq => hdot (List.cons.inj heq).1
        · exact fun _ heq => hbracket (List.cons.inj heq).1
      | subscript => cases h

/-- A text that spells a path is read step by step. -/
theorem parsePathString_of_spells {text : String} {path : Path} (h : Spells t text.toList path) :
    parsePathString t text = path.mapM (reads t) := by
  unfold parsePathString
  by_cases hempty : text = ""
  · subst hempty
    obtain rfl := h.nil
    rfl
  · rw [if_neg hempty]
    obtain ⟨texts, hsteps, htext⟩ := h
    rw [relativePath_eq hsteps (fun hnil => hempty (String.toList_eq_nil_iff.mp hnil)) htext]
    have hname : t.readName ('x' :: texts.flatten) = some ("x", texts.flatten) :=
      (@Tables.readName_identifier t ['x'] _ rfl (steps_endName hsteps)).trans
        (if_neg (by decide))
    unfold parse
    rw [hname, Option.bind_some,
      readTrailers_steps hsteps (show components (.name "x") = some [] from rfl) (by simp)]
    simp

/-- Every key that is an identifier is a name that Python reads as it stands. -/
def PlainNames (t : Tables) (path : Path) : Prop :=
  ∀ name : String, .key name ∈ path → t.isIdentifier name.toList = true →
    name ∉ keywords ∧ t.normalize name.toList = name

theorem reads_self_iff (k : Component) : reads t k = some k ↔
    ∀ name : String, k = .key name → t.isIdentifier name.toList = true →
      name ∉ keywords ∧ t.normalize name.toList = name := by
  cases k with
  | index => exact ⟨fun _ _ h => (by cases h), fun _ => rfl⟩
  | slice => exact ⟨fun _ _ h => (by cases h), fun _ => rfl⟩
  | key name =>
    cases hname : t.isIdentifier name.toList with
    | false =>
      refine ⟨fun _ other h => ?_, fun _ => reads_quoted hname⟩
      cases h
      rw [hname]
      exact fun h => by cases h
    | true =>
      rw [reads_identifier hname]
      constructor
      · intro h other hother _
        cases hother
        split at h
        · cases h
        · rename_i hkeyword
          exact ⟨hkeyword, Component.key.inj (Option.some.inj h)⟩
      · intro h
        obtain ⟨hkeyword, hnormal⟩ := h name rfl hname
        rw [if_neg hkeyword, hnormal]

/-- What `_path_string` writes of a path is read as that path exactly when every key that is an
identifier is no keyword and its own normal form. -/
theorem parsePathString_pathString {w : PathWriter} (hw : w.Writes t) (path : Path) :
    parsePathString t (pathString w path) = some path ↔ PlainNames t path := by
  rw [parsePathString_of_spells (spells_pathString hw path)]
  have hself : path.mapM (reads t) = some path ↔ ∀ k ∈ path, reads t k = some k := by
    induction path with
    | nil => simp
    | cons k path ih =>
      rw [List.mapM_cons, List.forall_mem_cons, ← ih]
      cases reads t k with
      | none => simp
      | some k' => cases path.mapM (reads t) <;> simp
  rw [hself]
  simp only [reads_self_iff]
  exact ⟨fun h name hm => h _ hm name rfl, fun h k hk name hname => h name (hname ▸ hk)⟩

/-! ## A writer -/

/-- The text of a slice, whose step is written when there is one. -/
def sliceLiteral (start stop step : Option Int) : List Char :=
  let bound : Option Int → List Char := fun b => (b.map intText).getD []
  match step with
  | none => bound start ++ ':' :: bound stop
  | some step => bound start ++ ':' :: (bound stop ++ ':' :: intText step)

theorem sliceLiteral_text (start stop step : Option Int) :
    SliceText (sliceLiteral start stop step) start stop step := by
  have hbound (b : Option Int) : BoundText ((b.map intText).getD []) b := by
    cases b with
    | none => exact .omitted
    | some i => exact .int (intText_text i)
  cases step with
  | none => exact .two (hbound start) (hbound stop)
  | some step => exact .three (hbound start) (hbound stop) (.int (intText_text step))

/-- The step that is written for an item. -/
def itemText (t : Tables) : Component → List Char
  | .key name =>
    if t.isIdentifier name.toList then '.' :: name.toList
    else '[' :: (stringLiteral name.toList ++ [']'])
  | .index i => '[' :: (intText i ++ [']'])
  | .slice start stop step => '[' :: (sliceLiteral start stop step ++ [']'])

theorem itemText_step (k : Component) : StepText t (itemText t k) k := by
  cases k with
  | key name =>
    rw [itemText]
    split
    · rename_i hname
      exact .attr hname
    · rename_i hname
      exact .subscript (.key (Bool.eq_false_iff.mpr hname) (stringLiteral_text _))
  | index i => exact .subscript (.index (intText_text i))
  | slice start stop step => exact .subscript (.slice (sliceLiteral_text start stop step))

/-- A writer of identifiers as attribute steps and of everything else as subscripts by literals. -/
def literalWriter (t : Tables) : PathWriter where
  appendItem path k := path ++ String.ofList (itemText t k)
  appendSlice path start stop step := path ++ String.ofList (itemText t (.slice start stop step))

theorem literalWriter_writes (t : Tables) : (literalWriter t).Writes t where
  item path k _ := ⟨_, itemText_step k, Or.inl (by simp [literalWriter])⟩
  slice path start stop step := ⟨_, itemText_step _, by simp [literalWriter]⟩

/-- A table with two letters beyond ASCII, one of them a ligature. -/
def ligatureTables : Tables where
  start c := decide (c = 'ﬁ' ∨ c = 'é')
  continues c := decide (c = 'ﬁ' ∨ c = 'é')
  normalForm name := String.ofList (name.toList.flatMap fun c => if c = 'ﬁ' then ['f', 'i'] else [c])

/-- Keys of all kinds, a negative index and a slice. -/
def mixedPath : Path :=
  [.key "member", .key "it's [not] a \"name\"", .index (-1), .slice (some (-2)) none (some 3), .key "é"]

theorem parsePathString_pathString_mixedPath :
    parsePathString ligatureTables (pathString (literalWriter ligatureTables) mixedPath) =
      some mixedPath :=
  (parsePathString_pathString (literalWriter_writes _) mixedPath).mpr (by
    intro name hname hidentifier
    simp only [mixedPath, List.mem_cons, Component.key.injEq, List.not_mem_nil, or_false,
      reduceCtorEq, false_or] at hname
    rcases hname with rfl | rfl | rfl
    · decide +kernel
    · revert hidentifier
      decide +kernel
    · revert hidentifier
      decide +kernel)

/-- A key that is a keyword cannot be read back. -/
theorem not_parsePathString_pathString :
    ¬ ∀ (t : Tables) (w : PathWriter), w.Writes t → ∀ path : Path,
      parsePathString t (pathString w path) = some path := by
  intro h
  have hread := h ligatureTables (literalWriter _) (literalWriter_writes _) [.key "class"]
  have hkeyword : parsePathString ligatureTables
      (pathString (literalWriter ligatureTables) [.key "class"]) = none := by decide +kernel
  rw [hread] at hkeyword
  cases hkeyword

/-- A ligature is read as the letters that it joins. -/
example : parsePathString ligatureTables
    (pathString (literalWriter ligatureTables) [.key "ﬁeld"]) = some [.key "field"] := by
  decide +kernel

end SeamlessWorkflow
