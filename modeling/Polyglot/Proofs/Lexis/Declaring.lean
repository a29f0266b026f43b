import Polyglot.Proofs.Lexis.Ordering

/-!
# Vocabularies and the order of their declarations

A vocabulary is put together from declarations: of exact texts, of entries that are used by
name, and of patterns of what stands between tokens. The first two give entries, and these
always have a shape, which is told by their name. So a declaration that comes again adds
nothing, and which entries there are depends on which ones were declared and not on when.

Together with the fact that vocabularies of shapes decide every text, this gives the main
statement: declarations of the same entries in any order, with the same patterns in their
order, cut every source in the same way (`Vocabulary.tokenize_declare?`).
-/

namespace Polyglot

open Lexicon (Shape)

namespace Lexicon.Shape

/-- The name of an exact text starts with a quote, which no name of another shape does. -/
theorem quote_ne_name (text : String) {s : Shape} (named : ∀ whole, s ≠ exact whole) :
    Text.quote text ≠ s.entry.name := by
  intro eq
  have first : s.entry.name.toList.head? = some '"' := by
    rw [← eq, Text.quote, String.toList_ofList]
    rfl
  cases s with
  | exact whole => exact named whole rfl
  | identifier | integer | string | regex => exact absurd first (by decide)

/-- **The name of an entry tells its shape.** -/
theorem entry_name_inj {s s' : Shape} (eq : s.entry.name = s'.entry.name) : s = s' := by
  cases s with
  | exact text =>
    cases s' with
    | exact text' => exact congrArg exact (Text.quote_injective eq)
    | identifier | integer | string | regex => exact absurd eq (quote_ne_name text nofun)
  | identifier | integer | string | regex =>
    cases s' with
    | exact text' => exact absurd eq.symm (quote_ne_name text' nofun)
    | identifier | integer | string | regex => first | rfl | exact absurd eq (by decide)

end Lexicon.Shape

namespace Vocabulary

/-- Something that a vocabulary is to have. -/
inductive Item where
  /-- The entry for exactly one text. -/
  | exact (text : String)
  /-- An entry that is used by name. -/
  | builtin (name : String)
  /-- A pattern of what stands between tokens. -/
  | ignored (pattern : String)
  deriving DecidableEq, Repr

namespace Item

/-- Whether this is a pattern of what stands between tokens, and no entry. -/
def isIgnored : Item → Bool
  | ignored _ => true
  | _ => false

end Item

/-- The vocabulary with one more item, if there is such an entry, or the pattern means
something. -/
def addItem? (v : Vocabulary) : Item → Option Vocabulary
  | .exact text => some (v.addExact text)
  | .builtin name => v.addBuiltin? name
  | .ignored pattern => (v.addIgnored pattern).toOption

/-- The vocabulary with all items, one after the other. -/
def declare? (items : List Item) : Option Vocabulary := items.foldlM addItem? blank

/-! ## What declarations come to -/

namespace Item

/-- The shape of an entry, if this is one that there is. -/
def shape? : Item → Option Shape
  | exact text => some (.exact text)
  | builtin name => [Shape.identifier, .integer, .string, .regex].find? (·.entry.name == name)
  | ignored _ => none

/-- The program of a pattern, if this is one that means something. -/
def program? : Item → Option Regex.Program
  | ignored pattern => (anchoredPattern pattern).toOption
  | _ => none

/-- Whether a vocabulary can have the item. -/
def isValid (i : Item) : Bool := i.shape?.isSome || i.program?.isSome

theorem program?_eq_none {i : Item} (h : i.isIgnored = false) : i.program? = none := by
  cases i with
  | exact | builtin => rfl
  | ignored => cases h

end Item

/-- Whether every entry has a shape. -/
def IsShaped (v : Vocabulary) : Prop := ∃ shapes : List Shape, v.entries = shapes.map Shape.entry

/-- **A vocabulary of shapes decides every text.** -/
theorem IsShaped.isClear {v : Vocabulary} (h : v.IsShaped) (text : List Char) :
    IsClear v.entries text := by
  obtain ⟨shapes, eq⟩ := h
  exact eq ▸ Lexicon.isClear ⟨shapes, false⟩ text

/-- What is left unchanged when entries are added, and which ones there are then. -/
structure Grows (v v' : Vocabulary) (declared : Shape → Prop) (patterns : List Regex.Program) :
    Prop where
  /-- Every entry still has a shape. -/
  shaped : v'.IsShaped
  /-- There are the entries that there were, and those that were declared. -/
  entries : ∀ s : Shape, s.entry ∈ v'.entries ↔ s.entry ∈ v.entries ∨ declared s
  /-- The patterns come after those that there were. -/
  ignored : v'.ignored = v.ignored ++ patterns

/-- Adding the entry of a shape. -/
theorem grows_add {v : Vocabulary} (shaped : v.IsShaped) (s : Shape) :
    Grows v (v.add s.entry) (· = s) [] := by
  obtain ⟨shapes, eq⟩ := shaped
  unfold add
  split
  · rename_i there
    -- the entry with this name is the one of this shape
    have mem : s.entry ∈ v.entries := by
      obtain ⟨e, mem, named⟩ := List.any_eq_true.1 there
      obtain ⟨s', mem', rfl⟩ := List.mem_map.1 (eq ▸ mem)
      rwa [← Shape.entry_name_inj (beq_iff_eq.1 named)]
    exact ⟨⟨shapes, eq⟩, fun s' => ⟨.inl, fun h => h.elim id (· ▸ mem)⟩, (List.append_nil _).symm⟩
  · refine ⟨⟨shapes ++ [s], by simp [eq]⟩, fun s' => ?_, (List.append_nil _).symm⟩
    rw [List.mem_append, List.mem_singleton]
    exact or_congr_right
      ⟨fun same => Shape.entry_name_inj (congrArg Entry.name same), congrArg Shape.entry⟩

/-- Adding an item fails if there is no such item, and else adds its entry or its pattern. -/
theorem addItem?_cases {v : Vocabulary} (shaped : v.IsShaped) (i : Item) :
    if i.isValid then
      ∃ v', v.addItem? i = some v' ∧ Grows v v' (i.shape? = some ·) i.program?.toList
    else v.addItem? i = none := by
  have added (s : Shape) : Grows v (v.add s.entry) (some s = some ·) [] :=
    ⟨(grows_add shaped s).shaped, fun s' => by
      rw [(grows_add shaped s).entries, Option.some.injEq, eq_comm], (grows_add shaped s).ignored⟩
  cases i with
  | exact text => exact ⟨_, rfl, added (.exact text)⟩
  | builtin name =>
    have known : builtinEntries.find? (·.name == name)
        = (Item.builtin name).shape?.map Shape.entry := by
      rw [Lexicon.builtinEntries_eq, ← List.map_nil (f := Shape.entry)]
      simp only [← List.map_cons, List.find?_map]
      rfl
    rw [addItem?, addBuiltin?, known]
    cases found : (Item.builtin name).shape? with
    | none => simp [Item.isValid, found, Item.program?]
    | some s =>
      rw [if_pos (by simp [Item.isValid, found])]
      exact ⟨_, rfl, added s⟩
  | ignored pattern =>
    rw [addItem?, addIgnored]
    cases read : anchoredPattern pattern with
    | error => simp [Item.isValid, Item.shape?, Item.program?, read, Except.map, Except.toOption]
    | ok program =>
      simp only [Item.isValid, Item.shape?, Item.program?, read, Except.toOption_map,
        Except.toOption_ok, Option.map_some, Option.isSome_some, Bool.or_true, if_true]
      exact ⟨_, rfl, shaped, fun s => by simp, rfl⟩

/-- **All declarations together** fail if there is one that does, and else add the entries that
were declared and the patterns in their order. -/
theorem foldlM_addItem?_cases {v : Vocabulary} (shaped : v.IsShaped) (items : List Item) :
    if items.all Item.isValid then
      ∃ v', items.foldlM addItem? v = some v'
        ∧ Grows v v' (fun s => ∃ i ∈ items, i.shape? = some s) (items.filterMap Item.program?)
    else items.foldlM addItem? v = none := by
  induction items generalizing v with
  | nil => exact ⟨v, rfl, shaped, fun s => by simp, by simp⟩
  | cons i items ih =>
    have first := addItem?_cases shaped i
    rw [List.all_cons, List.foldlM_cons]
    by_cases valid : i.isValid
    · rw [if_pos valid] at first
      obtain ⟨v₁, eq, grows⟩ := first
      rw [eq, valid, Bool.true_and]
      have others := ih grows.shaped
      split at others
      · obtain ⟨v₂, eq', grows'⟩ := others
        rw [if_pos ‹_›]
        refine ⟨v₂, eq', grows'.shaped, fun s => ?_, ?_⟩
        · rw [grows'.entries, grows.entries, or_assoc, List.exists_mem_cons_iff]
        · rw [grows'.ignored, grows.ignored, List.append_assoc, List.filterMap_cons]
          cases i.program? <;> rfl
      · rw [if_neg ‹_›]
        exact others
    · rw [if_neg valid] at first
      rw [first, if_neg (by simp [valid])]
      rfl

/-- The vocabulary that declarations start from has no entries. -/
theorem isShaped_blank : blank.IsShaped := ⟨[], rfl⟩

/-- Two lists with the same entries in any order, and the same patterns in their order, have the
same items. -/
theorem mem_iff_of_same {items items' : List Item}
    (entries : ∀ i, i.isIgnored = false → (i ∈ items ↔ i ∈ items'))
    (patterns : items.filter Item.isIgnored = items'.filter Item.isIgnored) (i : Item) :
    i ∈ items ↔ i ∈ items' := by
  cases kind : i.isIgnored with
  | false => exact entries i kind
  | true =>
    have := congrArg (i ∈ ·) patterns
    simpa [List.mem_filter, kind] using this

/-- The programs of the patterns among items depend on the patterns only. -/
theorem filterMap_program? (items : List Item) :
    items.filterMap Item.program? = (items.filter Item.isIgnored).filterMap Item.program? := by
  rw [List.filterMap_filter]
  refine List.filterMap_congr fun i _ => ?_
  cases kind : i.isIgnored with
  | false => exact Item.program?_eq_none kind
  | true => rfl

/-- **The order of declarations does not matter.** Vocabularies that are declared with the same
entries, in any order and however often, and with the same patterns of what stands between tokens
in the same order, cut every source into the same tokens, or fail in the same way; and if there is
no such vocabulary for one order, there is none for the other. -/
theorem tokenize_declare? {items items' : List Item}
    (entries : ∀ i, i.isIgnored = false → (i ∈ items ↔ i ∈ items'))
    (patterns : items.filter Item.isIgnored = items'.filter Item.isIgnored) (source : String) :
    (declare? items).map (·.tokenize source) = (declare? items').map (·.tokenize source) := by
  have same := mem_iff_of_same entries patterns
  have valid : items.all Item.isValid = items'.all Item.isValid := by
    rw [Bool.eq_iff_iff, List.all_eq_true, List.all_eq_true]
    exact forall_congr' fun i => imp_congr_left (same i)
  have one := foldlM_addItem?_cases isShaped_blank items
  have other := foldlM_addItem?_cases isShaped_blank items'
  rw [← valid] at other
  unfold declare?
  split at one
  · rw [if_pos ‹_›] at other
    obtain ⟨v, eq, grows⟩ := one
    obtain ⟨v', eq', grows'⟩ := other
    rw [eq, eq', Option.map_some, Option.map_some]
    refine congrArg some (tokenize_congr ?_ (fun e => ?_) grows.shaped.isClear source)
    · rw [grows.ignored, grows'.ignored, filterMap_program?, patterns, ← filterMap_program?]
    · have shape (s : Shape) : s.entry ∈ v.entries ↔ s.entry ∈ v'.entries := by
        rw [grows.entries, grows'.entries]
        exact or_congr_right (exists_congr fun i => and_congr_left' (same i))
      obtain ⟨shapes, all⟩ := grows.shaped
      obtain ⟨shapes', all'⟩ := grows'.shaped
      constructor
      · intro mem
        obtain ⟨s, -, rfl⟩ := List.mem_map.1 (all ▸ mem)
        exact (shape s).1 mem
      · intro mem
        obtain ⟨s, -, rfl⟩ := List.mem_map.1 (all' ▸ mem)
        exact (shape s).2 mem
  · rw [if_neg ‹_›] at other
    rw [one, other]

/-- A word that is a name as well as a keyword, declared before or after the names. -/
theorem tokenize_declare?_keyword :
    let items : List Item := [.builtin "identifier", .ignored "#[^\\n]*", .exact "if"]
    let items' : List Item := [.exact "if", .builtin "identifier", .ignored "#[^\\n]*"]
    (declare? items).map (·.tokenize "if iff # if")
        = (declare? items').map (·.tokenize "if iff # if")
      ∧ (declare? items).map (fun v => (v.tokenize "if iff # if").toOption.map (·.map Token.type))
        = some (some ["\"if\"", "identifier"]) := by
  intro items items'
  have entries (i : Item) : i.isIgnored = false → (i ∈ items ↔ i ∈ items') := by
    simp only [items, items', List.mem_cons, List.not_mem_nil, or_false]
    tauto
  have patterns : items.filter Item.isIgnored = items'.filter Item.isIgnored := by decide
  refine ⟨tokenize_declare? entries patterns _, ?_⟩
  have declared : declare? items = some (Lexicon.mk [.identifier, .exact "if"] true).vocabulary := by
    decide +kernel
  rw [declared, Option.map_some, Lexicon.tokenize_vocabulary]
  decide +kernel

end Vocabulary

end Polyglot
