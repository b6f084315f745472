import Mathlib.Data.List.Sort

/-!
# JSON texts with sorted keys

A value with mappings, and the text that an encoder with sorted keys gives for it. The encoder fails
on a value that it does not know, on a key without a text, and on a mapping whose keys do not compare.
-/

/-- A value that an encoder is given. The keys of its mappings are in `κ`; `α` is for the values that
the encoder does not know. -/
inductive JsonInput (κ α : Type)
  | null
  | bool (b : Bool)
  | int (i : Int)
  | str (s : String)
  | unknown (a : α)
  | list (items : List (JsonInput κ α))
  | dict (items : List (κ × JsonInput κ α))

/-- How an encoder treats keys. -/
structure JsonKeys (κ : Type) where
  /-- Can two keys be compared? -/
  comparable : κ → κ → Bool
  le : κ → κ → Bool
  /-- The text of a key as a string, when it has one. -/
  text : κ → Option String

namespace JsonInput

/-- Four hexadecimal digits. -/
def hex4 (n : Nat) : String :=
  let digits := Nat.toDigits 16 n
  String.ofList (List.replicate (4 - digits.length) '0' ++ digits)

/-- A character inside a string literal: ASCII only, with surrogate pairs above `U+FFFF`. -/
def escape (c : Char) : String :=
  if c = '"' then "\\\"" else if c = '\\' then "\\\\" else if c = '\n' then "\\n"
  else if c = '\r' then "\\r" else if c = '\t' then "\\t" else if c.toNat = 8 then "\\b"
  else if c.toNat = 12 then "\\f"
  else if 32 ≤ c.toNat ∧ c.toNat ≤ 126 then c.toString
  else if c.toNat < 0x10000 then "\\u" ++ hex4 c.toNat
  else
    let n := c.toNat - 0x10000
    "\\u" ++ hex4 (0xd800 + n / 0x400) ++ "\\u" ++ hex4 (0xdc00 + n % 0x400)

def quote (s : String) : String := "\"" ++ String.join (s.toList.map escape) ++ "\""

variable {κ α : Type} (keys : JsonKeys κ)

/-- The entries of a mapping by key, and their texts. -/
def joinEntries (entries : List (κ × String)) : Option String :=
  if entries.all fun a => entries.all fun b => keys.comparable a.1 b.1 then
    ((entries.insertionSort fun a b => keys.le a.1 b.1).mapM fun entry =>
      (keys.text entry.1).map fun key => quote key ++ ":" ++ entry.2).map fun texts =>
        "\x7b" ++ ",".intercalate texts ++ "\x7d"
  else none

mutual

/-- The text of a value. -/
def dumps : JsonInput κ α → Option String
  | .null => some "null"
  | .bool b => some (if b then "true" else "false")
  | .int i => some (toString i)
  | .str s => some (quote s)
  | .unknown _ => none
  | .list items => (dumpsItems items).map fun texts => "[" ++ ",".intercalate texts ++ "]"
  | .dict items => (dumpsEntries items).bind (joinEntries keys)

def dumpsItems : List (JsonInput κ α) → Option (List String)
  | [] => some []
  | item :: items => (dumps item).bind fun text => (dumpsItems items).map (text :: ·)

def dumpsEntries : List (κ × JsonInput κ α) → Option (List (κ × String))
  | [] => some []
  | entry :: entries => (dumpsEntry entry).bind fun pair => (dumpsEntries entries).map (pair :: ·)

def dumpsEntry : κ × JsonInput κ α → Option (κ × String)
  | (key, value) => (dumps value).map (key, ·)

end

/-! ## What can be encoded -/

/-- Does a value have a text? -/
def Encodes (value : JsonInput κ α) : Prop := (dumps keys value).isSome = true

@[simp] theorem encodes_null : Encodes keys (.null : JsonInput κ α) := rfl

@[simp] theorem encodes_bool (b : Bool) : Encodes keys (.bool b : JsonInput κ α) := rfl

@[simp] theorem encodes_int (i : Int) : Encodes keys (.int i : JsonInput κ α) := rfl

@[simp] theorem encodes_str (s : String) : Encodes keys (.str s : JsonInput κ α) := rfl

@[simp] theorem not_encodes_unknown (a : α) : ¬ Encodes keys (.unknown a : JsonInput κ α) := by
  simp [Encodes, dumps]

theorem isSome_dumpsItems (items : List (JsonInput κ α)) :
    (dumpsItems keys items).isSome = true ↔ ∀ item ∈ items, Encodes keys item := by
  induction items with
  | nil => simp [dumpsItems]
  | cons item items ih =>
    rw [List.forall_mem_cons, ← ih, dumpsItems]
    unfold Encodes
    cases dumps keys item <;> simp

/-- A list can be encoded when its items can. -/
@[simp] theorem encodes_list (items : List (JsonInput κ α)) :
    Encodes keys (.list items) ↔ ∀ item ∈ items, Encodes keys item := by
  rw [Encodes, dumps, Option.isSome_map, isSome_dumpsItems]

theorem isSome_dumpsEntries (entries : List (κ × JsonInput κ α)) :
    (dumpsEntries keys entries).isSome = true ↔ ∀ entry ∈ entries, Encodes keys entry.2 := by
  induction entries with
  | nil => simp [dumpsEntries]
  | cons entry entries ih =>
    rw [List.forall_mem_cons, ← ih, dumpsEntries, dumpsEntry]
    unfold Encodes
    cases dumps keys entry.2 <;> simp

theorem keys_dumpsEntries {entries : List (κ × JsonInput κ α)} {texts : List (κ × String)}
    (h : dumpsEntries keys entries = some texts) :
    texts.map Prod.fst = entries.map Prod.fst := by
  induction entries generalizing texts with
  | nil =>
    unfold dumpsEntries at h
    rw [← Option.some.inj h]
    rfl
  | cons entry entries ih =>
    unfold dumpsEntries dumpsEntry at h
    obtain ⟨pair, hpair, hrest⟩ := Option.bind_eq_some_iff.mp h
    obtain ⟨text, -, rfl⟩ := Option.map_eq_some_iff.mp hpair
    obtain ⟨rest, htexts, rfl⟩ := Option.map_eq_some_iff.mp hrest
    rw [List.map_cons, List.map_cons, ih htexts]

theorem isSome_mapM {β γ : Type} {f : β → Option γ} (items : List β) :
    (items.mapM f).isSome = true ↔ ∀ item ∈ items, (f item).isSome = true := by
  induction items with
  | nil => simp
  | cons item items ih =>
    rw [List.mapM_cons, List.forall_mem_cons, ← ih]
    cases f item with
    | none => simp
    | some b => cases items.mapM f <;> simp

theorem isSome_joinEntries (texts : List (κ × String)) :
    (joinEntries keys texts).isSome = true ↔
      (∀ a ∈ texts, ∀ b ∈ texts, keys.comparable a.1 b.1 = true) ∧
        ∀ entry ∈ texts, (keys.text entry.1).isSome = true := by
  unfold joinEntries
  simp only [List.all_eq_true]
  split
  · rename_i hcompare
    rw [Option.isSome_map, isSome_mapM]
    simp only [List.mem_insertionSort, Option.isSome_map]
    exact ⟨fun h => ⟨hcompare, h⟩, fun h => h.2⟩
  · rename_i hcompare
    exact ⟨fun h => absurd h (by simp), fun h => absurd h.1 hcompare⟩

/-- A mapping can be encoded when its values can, its keys compare and each of them has a text. -/
theorem encodes_dict (entries : List (κ × JsonInput κ α)) :
    Encodes keys (.dict entries) ↔ (∀ entry ∈ entries, Encodes keys entry.2) ∧
      (∀ a ∈ entries, ∀ b ∈ entries, keys.comparable a.1 b.1 = true) ∧
        ∀ entry ∈ entries, (keys.text entry.1).isSome = true := by
  have hover (P : κ → Prop) {texts : List (κ × String)}
      (h : texts.map Prod.fst = entries.map Prod.fst) :
      (∀ a ∈ texts, P a.1) ↔ ∀ a ∈ entries, P a.1 := by
    rw [← List.forall_mem_map (f := Prod.fst) (P := P), h, List.forall_mem_map]
  rw [← isSome_dumpsEntries, Encodes, dumps]
  cases hentries : dumpsEntries keys entries with
  | none => simp
  | some texts =>
    have hkeys := keys_dumpsEntries keys hentries
    rw [Option.bind_some, isSome_joinEntries, hover (fun k => (keys.text k).isSome = true) hkeys]
    simp only [Option.isSome_some, true_and]
    refine and_congr_left fun _ => ?_
    rw [hover (fun k => ∀ b ∈ texts, keys.comparable k b.1 = true) hkeys]
    exact forall₂_congr fun a _ => hover (fun k => keys.comparable a.1 k = true) hkeys

/-- Where the keys compare and have texts, the values alone decide. -/
theorem encodes_dict_of_all {entries : List (κ × JsonInput κ α)}
    (hcompare : ∀ a ∈ entries, ∀ b ∈ entries, keys.comparable a.1 b.1 = true)
    (htext : ∀ entry ∈ entries, (keys.text entry.1).isSome = true) :
    Encodes keys (.dict entries) ↔ ∀ entry ∈ entries, Encodes keys entry.2 := by
  rw [encodes_dict]
  exact ⟨fun h => h.1, fun h => ⟨h, hcompare, htext⟩⟩

end JsonInput
