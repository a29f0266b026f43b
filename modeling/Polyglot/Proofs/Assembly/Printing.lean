import Polyglot.Proofs.Assembly.Trees
import Polyglot.Proofs.Tree.Layout
import Polyglot.Proofs.Tree.Unplaced

/-!
# Printing the assembly language

A source is printed item by item, one on a line. Nothing is lost on the way: every section
of a source has a header and items, the items are what is right below it, and each of
them is printed with all its tokens (`laid_print`).
-/

namespace Polyglot.Assembly

open Polyglot.Lexicon (Blank Laid)

theorem tidy_lexicon : lexicon.tidy := by decide

/-- Signs go on with nothing, and nothing goes on with a colon. -/
theorem parts_layout (t u : Token) (whole : lexicon.Whole t) (_ : lexicon.Whole u) :
    layout.Parts lexicon t u := by
  refine Layout.parts_of_texts ["-", "="] [":"] tidy_lexicon whole
    (by decide) (by decide) fun noSpace => ?_
  simpa [layout, Decidable.imp_iff_not_or] using noSpace

/-! ## Places -/

mutual

theorem itemsOf_unplaced (t : Tree) : itemsOf t.unplaced = (itemsOf t).map Tree.unplaced := by
  cases t with
  | leaf name label terminal token =>
    simp only [Tree.unplaced_leaf, itemsOf]
    split <;> simp
  | node name label choice children =>
    simp only [Tree.unplaced_node, itemsOf, items_unplaced children]
    split <;> simp

theorem items_unplaced (ts : List Tree) :
    items (ts.map Tree.unplaced) = (items ts).map Tree.unplaced := by
  cases ts with
  | nil => rfl
  | cons t ts =>
    rw [List.map_cons, items, itemsOf_unplaced t, items_unplaced ts, items, List.map_append]

end

theorem blind_layout : layout.Blind := ⟨fun _ _ => rfl, fun _ => rfl, fun _ => rfl, fun _ => rfl, fun _ => rfl⟩

theorem sectionLines_unplaced (t : Tree) : sectionLines t.unplaced = sectionLines t := by
  unfold sectionLines
  rw [Tree.children_unplaced, items_unplaced]
  cases items t.children with
  | nil => rfl
  | cons header rest =>
    simp only [List.map_cons, List.map_map, Tree.text_unplaced, Function.comp_def,
      blind_layout.print_unplaced, Tree.name_unplaced]

/-- Printing does not look at places. -/
theorem print_unplaced (t : Tree) : print t.unplaced = print t := by
  rw [print, print, Tree.children_unplaced, List.flatMap_map]
  simp only [sectionLines_unplaced]

/-! ## Items -/

/-- What is not looked through is an item. -/
theorem items_eq_self {ts : List Tree} (each : ∀ t ∈ ts, isWrapper t.name = false) :
    items ts = ts := by
  induction ts with
  | nil => rfl
  | cons t ts ih =>
    obtain ⟨first, others⟩ := List.forall_mem_cons.1 each
    have alone : itemsOf t = [t] := by
      cases t <;> simp only [itemsOf, Tree.name] at first ⊢ <;> simp [first]
    rw [items, alone, ih others, List.singleton_append]

/-- The texts of tokens, with spaces between them, hold the tokens. -/
theorem laid_text {t : Tree} (whole : ∀ u ∈ t.solidTokens, lexicon.Whole u) :
    Laid lexicon t.solidTokens t.text.toList := by
  have each (ts : List Token) :
      List.Forall₂ (Laid lexicon) (ts.map ([·])) ((ts.map (·.lexeme)).map String.toList) := by
    induction ts with
    | nil => exact .nil
    | cons u ts ih =>
      refine .cons ?_ ih
      have laid : Laid lexicon [u] ([] ++ (u.lexeme.toList ++ [])) :=
        .token nofun nofun (.done nofun)
      rwa [List.nil_append, List.append_nil] at laid
  have all := Laid.intercalate [' '] tidy_lexicon (by simp [Blank]) (by simp) (by simpa)
    (each t.solidTokens)
  rw [← List.flatMap_def, List.flatMap_singleton'] at all
  rw [Tree.text, String.toList_intercalate]
  exact all

theorem laid_item {t : Tree} (whole : ∀ u ∈ t.solidTokens, lexicon.Whole u) :
    Laid lexicon t.solidTokens (layout.print t).toList := by
  rw [Layout.print_eq]
  exact Layout.laid_printTokens_of_parts tidy_lexicon (by decide) whole parts_layout

/-- Whether lines hold tokens, each line some of them. -/
def Hold (lines : List String) (ts : List Token) : Prop :=
  ∃ tss, tss.flatten = ts ∧ List.Forall₂ (Laid lexicon) tss (lines.map String.toList)

theorem Hold.append {lines more : List String} {ts us : List Token} (h : Hold lines ts)
    (h' : Hold more us) : Hold (lines ++ more) (ts ++ us) := by
  obtain ⟨tss, rfl, each⟩ := h
  obtain ⟨uss, rfl, each'⟩ := h'
  refine ⟨tss ++ uss, List.flatten_append, ?_⟩
  rw [List.map_append]
  exact List.rel_append each each'

/-- The lines of a section hold its tokens. -/
theorem hold_section {name header : String} {isItem : Tree → Prop} {t : Tree}
    (h : IsSection name header isItem t) (headed : isWrapper (Text.quote header) = false)
    (named : ∀ item, isItem item → isWrapper item.name = false)
    (whole : ∀ u ∈ t.solidTokens, lexicon.Whole u) :
    Hold (sectionLines t) t.solidTokens := by
  obtain ⟨word, rest, rfl, isWord, each⟩ := h
  rw [Tree.solidTokens_node] at whole
  have headed : isWrapper word.name = false := by
    obtain ⟨token, rfl, -⟩ := isWord
    exact headed
  have here : items (word :: rest) = word :: rest :=
    items_eq_self (List.forall_mem_cons.2 ⟨headed, fun item mem => named item (each item mem)⟩)
  have within {item : Tree} (mem : item ∈ word :: rest) :
      ∀ u ∈ item.solidTokens, lexicon.Whole u := fun u mem' =>
    whole u (List.mem_flatMap.2 ⟨item, mem, mem'⟩)
  refine ⟨(word :: rest).map Tree.solidTokens, ?_, ?_⟩
  · rw [Tree.solidTokens_node, List.flatMap_def]
  · rw [sectionLines, Tree.children, here]
    refine .cons (laid_text (within (List.mem_cons_self ..))) ?_
    rw [List.map_map, List.forall₂_map_left_iff, List.forall₂_map_right_iff, List.forall₂_same]
    intro item mem
    have laid := laid_item (within (List.mem_cons_of_mem _ mem))
    dsimp only [Function.comp]
    split
    · exact laid
    · rw [String.toList_append]
      exact laid.after_blank _ (by decide)

/-- **What is printed for a source** holds its tokens. -/
theorem laid_print {t : Tree} (h : IsSource t) (whole : ∀ u ∈ t.solidTokens, lexicon.Whole u) :
    Laid lexicon t.solidTokens (print t).toList := by
  obtain ⟨data, code, rfl, -, isData, isCode⟩ := h
  rw [Tree.solidTokens_node] at whole ⊢
  have wholeOf {s : Tree} (mem : s ∈ data ++ [code]) : ∀ u ∈ s.solidTokens, lexicon.Whole u :=
    fun u mem' => whole u (List.mem_flatMap.2 ⟨s, mem, mem'⟩)
  have held : ∀ s ∈ data ++ [code], Hold (sectionLines s) s.solidTokens := by
    refine List.forall_mem_append.2 ⟨fun s mem => ?_, List.forall_mem_singleton.2 ?_⟩
    · refine hold_section (isData s mem) (by decide) ?_ (wholeOf (List.mem_append_left _ mem))
      rintro _ ⟨token, rfl, -⟩
      exact (by decide : isWrapper "constant" = false)
    · refine hold_section isCode (by decide) ?_ (wholeOf (by simp))
      rintro _ (_ | _)
      · exact (by decide : isWrapper "label" = false)
      · exact (by decide : isWrapper "instruction" = false)
  have all (sections : List Tree) (held : ∀ s ∈ sections, Hold (sectionLines s) s.solidTokens) :
      Hold (sections.flatMap sectionLines) (sections.flatMap Tree.solidTokens) := by
    induction sections with
    | nil => exact ⟨[], rfl, .nil⟩
    | cons s sections ih =>
      obtain ⟨first, others⟩ := List.forall_mem_cons.1 held
      rw [List.flatMap_cons, List.flatMap_cons]
      exact first.append (ih others)
  obtain ⟨tss, flat, each⟩ := all _ held
  rw [print, Tree.children, String.toList_intercalate, ← flat]
  rw [← flat] at whole
  exact Laid.intercalate ['\n'] tidy_lexicon (by decide) (by decide)
    (fun ts mem t mem' => whole t (List.mem_flatten.2 ⟨ts, mem, mem'⟩)) each

end Polyglot.Assembly
