import Polyglot.Proofs.Assembly.Places
import Polyglot.Proofs.Assembly.Reading
import Polyglot.Proofs.Tree.Shaking

/-!
# Listings are what is read

What is read in the source of a listing is the listing again, but for where its lines stand,
from the raw tree and from the shaken one (`Listing.reread`). The one thing that is not
read again is a number that takes more than sixty-four bits.
-/

namespace Polyglot.Machine

theorem Register.ofName?_name (r : Register) : ofName? r.name = some r := by
  have each : ∀ i : Fin 32, ofName? (Register.mk i).name = some ⟨i⟩ := by decide
  exact each r.index

end Polyglot.Machine

namespace Polyglot.Assembly

open Polyglot.Lexicon (Shape isReserved_quote mark nameToken numberToken textToken)
open Polyglot.Machine (Register)

/-! ## Numbers -/

/-- Whether the number of an operand, if it has one, is read as itself. -/
def Operand.fits : Operand → Bool
  | int value => value.natAbs < Text.bitRange 63
  | constant index => index < Text.bitRange 63
  | _ => true

/-- Whether the numbers of a line are read as themselves. -/
def Line.fits : Line → Bool
  | label .. => true
  | instruction _ operands _ => operands.all Operand.fits

/-- Whether the numbers of a listing are read as themselves. -/
def Listing.fits (l : Listing) : Bool := l.lines.all Line.fits

theorem int?_numberToken (n : Nat) :
    (numberToken n).int? = if n < Text.bitRange 63 then some (n : Int) else none := by
  unfold Token.int? numberToken
  rw [Shape.literal_token, Lexicon.value?_repr]
  by_cases small : n < Text.bitRange 63
  · rw [if_pos small, if_pos small]
  · rw [if_neg small, if_neg small]

theorem int?_mark (text : String) : (mark text).int? = none := rfl

/-! ## Operands -/

theorem Operand.name_tree (raw : Bool) (o : Operand) : (o.tree raw).name = "operand" := by
  cases o with
  | int value => cases value <;> rfl
  | register | label | constant => rfl

theorem name_mnemonicTree (mnemonic : String) (count : Nat) :
    (mnemonicTree mnemonic count).name ≠ "operand" := by
  have named : ∀ rule ∈ ["op1", "op2", "op3"], rule ≠ "operand" := by decide
  refine named _ ?_
  show (mnemonicRule count).1 ∈ _
  unfold mnemonicRule
  split <;> simp

theorem operandOf_name {name : String} (h : IsName name) :
    operandOf (.node "operand" none (some 0) [.leaf "name" none (some "identifier") (nameToken name)])
      = .ok (.ofName name) := by
  have text : (Tree.leaf "name" none (some "identifier") (nameToken name)).text = name :=
    Tree.text_of_tokens (Tree.tokens_leaf ..) h.whole.isEmpty
  show Except.ok (Operand.ofName _) = _
  rw [text]

/-- The number that is read is that of the first token that has one. -/
theorem toOption_integerOf (t : Tree) :
    (integerOf t).toOption = t.tokens.findSome? Token.int? := by
  unfold integerOf
  split <;> simp [*]

theorem isMinus_digits (n : Nat) : isMinus (.ofToken (numberToken n)) = false := by
  obtain ⟨c, rest, list, isDigit, -⟩ := Lexicon.digits_repr n
  refine beq_eq_false_iff_ne.2 fun eq => ?_
  have list' : n.repr.toList = "-".toList := congrArg String.toList eq
  rw [list] at list'
  obtain ⟨rfl, -⟩ := List.cons.inj list'
  cases isDigit

theorem operandOf_unsigned (raw : Bool) (n : Nat) :
    (operandOf ((Operand.int n).tree raw)).toOption
      = if n < Text.bitRange 63 then some (.int n) else none := by
  have positive : isNegative (.node "integer" none (some 0)
      (held raw (Text.quote "-" ++ "?") [] ++ [.ofToken (numberToken n)])) = false := by
    cases raw with
    | true => rfl
    | false =>
      show (isMinus (.ofToken (numberToken n)) || _) = false
      rw [isMinus_digits]
      rfl
  have tokens : (Tree.node "integer" none (some 0)
      (held raw (Text.quote "-" ++ "?") [] ++ [.ofToken (numberToken n)])).tokens = [numberToken n] := by
    cases raw <;> simp [held, Tree.ofToken]
  show (Except.toOption (do
    let value ← integerOf _
    return Operand.int (if isNegative _ then _ else value))) = _
  rw [Except.toOption_bind, toOption_integerOf, tokens, positive]
  simp only [List.findSome?_cons, int?_numberToken]
  by_cases small : n < Text.bitRange 63
  · simp [small]
  · simp [small]

theorem operandOf_signed (raw : Bool) (n : Nat) :
    (operandOf ((Operand.int (.negSucc n)).tree raw)).toOption
      = if n + 1 < Text.bitRange 63 then some (.int (.negSucc n)) else none := by
  have negative : isNegative (.node "integer" none (some 0)
      (held raw (Text.quote "-" ++ "?") [.ofToken (mark "-")]
        ++ [.ofToken (numberToken (n + 1))])) = true := by
    cases raw <;> rfl
  have tokens : (Tree.node "integer" none (some 0)
      (held raw (Text.quote "-" ++ "?") [.ofToken (mark "-")]
        ++ [.ofToken (numberToken (n + 1))])).tokens = [mark "-", numberToken (n + 1)] := by
    cases raw <;> simp [held, Tree.ofToken]
  show (Except.toOption (do
    let value ← integerOf _
    return Operand.int (if isNegative _ then (-value).bmod (Text.bitRange 64) else value))) = _
  rw [Except.toOption_bind, toOption_integerOf, tokens, negative]
  simp only [List.findSome?_cons, int?_mark, int?_numberToken]
  by_cases small : n + 1 < Text.bitRange 63
  · have wraps : (-((n + 1 : Nat) : Int)).bmod (Text.bitRange 64) = .negSucc n := by
      rw [Int.bmod_eq_of_le] <;> simp only [Text.bitRange] at small ⊢ <;> omega
    simp only [small, ↓reduceIte, Option.bind_some, wraps, Except.toOption_pure]
  · simp [small]

/-- **The operand of the tree of an operand** is the operand, if its number is one that can be
read. -/
theorem operandOf_tree (raw : Bool) {o : Operand} (written : o.Written) :
    (operandOf (o.tree raw)).toOption = if o.fits then some o else none := by
  cases o with
  | register r =>
    rw [Operand.tree, operandOf_name (isName_register r), Operand.ofName, r.ofName?_name]
    rfl
  | label name =>
    rw [Operand.tree, operandOf_name written.1, Operand.ofName, written.2]
    rfl
  | int value =>
    cases value with
    | ofNat n => simpa [Operand.fits] using operandOf_unsigned raw n
    | negSucc n => simpa [Operand.fits] using operandOf_signed raw n
  | constant index =>
    have tokens : (Tree.node "constant_ref" none (some 0)
        [.ofToken (mark "="), .ofToken (numberToken index)]).tokens
          = [mark "=", numberToken index] := by
      simp [Tree.ofToken]
    show (Except.toOption (do
      return Operand.constant ((← integerOf _) % Text.bitRange 64).toNat)) = _
    rw [Except.toOption_bind, toOption_integerOf, tokens]
    simp only [List.findSome?_cons, int?_mark, int?_numberToken]
    by_cases small : index < Text.bitRange 63
    · have wraps : ((index : Int) % Text.bitRange 64).toNat = index := by
        have wide : Text.bitRange 63 < Text.bitRange 64 := by decide
        rw [Int.emod_eq_of_lt (Int.natCast_nonneg _) (by omega), Int.toNat_natCast]
      simp [Operand.fits, small, wraps]
    · simp [Operand.fits, small]

/-! ## Lines -/

theorem toOption_operands (raw : Bool) {operands : List Operand} (written : ∀ o ∈ operands, o.Written) :
    ((operands.map (Operand.tree raw)).mapM operandOf).toOption
      = if operands.all Operand.fits then some operands else none := by
  rw [Except.toOption_mapM, List.mapM_map]
  induction operands with
  | nil => rfl
  | cons o operands ih =>
    obtain ⟨first, others⟩ := List.forall_mem_cons.1 written
    rw [List.mapM_cons, ih others, Function.comp_apply, operandOf_tree raw first, List.all_cons]
    cases o.fits <;> cases operands.all Operand.fits <;> rfl

theorem instructionOf_tree (raw : Bool) {mnemonic : String} {operands : List Operand} (span : Source.Span)
    (written : (Line.instruction mnemonic operands span).Written) :
    (instructionOf ((Line.instruction mnemonic operands span).tree raw)).toOption.map Line.unplaced
      = if operands.all Operand.fits then some (.instruction mnemonic operands .start) else none := by
  obtain ⟨arity, written⟩ := written
  have kept : ((Line.instruction mnemonic operands span).tree raw).children.filter
      (·.name == "operand") = operands.map (Operand.tree raw) := by
    have first : (mnemonicTree mnemonic operands.length).name ≠ "operand" :=
      name_mnemonicTree mnemonic operands.length
    rw [Line.tree, Tree.children, List.filter_cons_of_neg (by simpa using first),
      List.filter_eq_self]
    exact List.forall_mem_map.2 fun o _ => by rw [o.name_tree]; rfl
  have text : (mnemonicTree mnemonic operands.length).text = mnemonic := by
    have solid : (mark mnemonic).isEmpty = false := (whole_mnemonic arity).isEmpty
    exact Tree.text_of_tokens (by simp [mnemonicTree, Tree.ofToken]) solid
  have named : (((Line.instruction mnemonic operands span).tree raw).labeled? "op").map Tree.text
      = some mnemonic :=
    congrArg some text
  unfold instructionOf
  rw [Except.toOption_bind, kept, named, toOption_operands raw written]
  split <;> rfl

/-- **The line of the tree of a line** is the line, but for its place. -/
theorem items?_item (raw : Bool) {line : Line} (written : line.Written) :
    items? (line.item raw) = if line.fits then some [.line line.unplaced] else none := by
  have looked : items? (line.item raw) = items? (line.tree raw) := by
    cases raw with
    | false => rfl
    | true =>
      rw [Line.item, if_pos rfl, items?_eq]
      show itemsOfList? [line.tree true] = _
      rw [itemsOfList?_cons]
      cases items? (line.tree true) <;> simp
  rw [looked, items?_eq]
  cases line with
  | label name span => rfl
  | instruction mnemonic operands span =>
    have item : itemOf? ((Line.instruction mnemonic operands span).tree raw)
        = some ((instructionOf ((Line.instruction mnemonic operands span).tree raw)).map .line) := rfl
    have places : Item.unplaced ∘ Item.line = Item.line ∘ Line.unplaced := rfl
    rw [item, Option.map_some, Except.toOption_map, Option.map_map, places, ← Option.map_map,
      instructionOf_tree raw span written, Line.fits]
    cases operands.all Operand.fits <;> rfl

/-! ## Listings -/

/-- What has no items of its own has those of the trees below it. -/
theorem items?_of_held (raw : Bool) {name : String}
    (itemless : ∀ items, itemOf? (.node name none none items) = none) (ts : List Tree) : itemsOfList? (held raw name ts) = itemsOfList? ts := by
  cases raw with
  | false => rfl
  | true =>
    rw [held, if_pos rfl, itemsOfList?_cons, items?_eq, itemless]
    show (itemsOfList? ts).bind _ = _
    cases itemsOfList? ts <;> simp

theorem itemsOfList?_constants (constants : List String) :
    itemsOfList? (constants.map constantTree) = some (constants.map .constant) := by
  induction constants with
  | nil => rfl
  | cons c constants ih =>
    have item : itemOf? (constantTree c) = some (.ok (.constant c)) := by
      have token : (constantTree c).token?.bind Token.str? = some c :=
        Lexicon.str?_textToken c
      have isConstant : ((constantTree c).name == "constant") = true := rfl
      rw [itemOf?, if_pos isConstant, token]
    have items : items? (constantTree c) = some [.constant c] := by
      rw [items?_eq, item]
      rfl
    rw [List.map_cons, itemsOfList?_cons, items, ih]
    rfl

theorem itemsOfList?_lines (raw : Bool) {lines : List Line} (written : ∀ line ∈ lines, line.Written) :
    itemsOfList? (lines.map (Line.item raw))
      = if lines.all Line.fits then some (lines.map fun line => .line line.unplaced) else none := by
  induction lines with
  | nil => rfl
  | cons line lines ih =>
    obtain ⟨first, others⟩ := List.forall_mem_cons.1 written
    rw [List.map_cons, itemsOfList?_cons, items?_item raw first, ih others, List.all_cons]
    cases line.fits <;> cases lines.all Line.fits <;> rfl

/-- A section has the items that stand behind its header. -/
theorem items?_section (raw : Bool) {name header repeated : String}
    (inner : ∀ items, itemOf? (.node name none (some 0) items) = none)
    (word : itemOf? (.ofToken (mark header)) = none)
    (wrapper : ∀ items, itemOf? (.node repeated none none items) = none) (ts : List Tree) :
    items? (.node name none (some 0) (.ofToken (mark header) :: held raw repeated ts))
      = itemsOfList? ts := by
  rw [items?_eq, inner]
  show itemsOfList? (_ :: held raw repeated ts) = _
  rw [itemsOfList?_cons, items?_eq, word, items?_of_held raw wrapper]
  show (itemsOfList? ts).map _ = _
  cases itemsOfList? ts <;> simp

theorem items?_tree (raw : Bool) {l : Listing} (written : ∀ line ∈ l.lines, line.Written) :
    items? (l.tree raw)
      = if l.fits then
          some (l.constants.map .constant ++ l.lines.map fun line => .line line.unplaced)
        else none := by
  rw [Listing.tree, items?_eq]
  show itemsOfList? (held raw _ _ ++ _) = _
  rw [itemsOfList?_append, items?_of_held raw fun _ => rfl, itemsOfList?_cons, itemsOfList?_cons,
    items?_section raw (fun _ => rfl) rfl fun _ => rfl,
    items?_section raw (fun _ => rfl) rfl fun _ => rfl,
    itemsOfList?_constants, itemsOfList?_lines raw written, Listing.fits]
  cases l.lines.all Line.fits <;> simp

namespace Listing

variable {l : Listing}

/-- **The listing of the tree of a listing** is the listing, but for where its lines stand, if
its numbers are ones that can be read. -/
theorem ofTree_tree (raw : Bool) (written : ∀ line ∈ l.lines, line.Written) :
    (ofTree (l.tree raw)).toOption.map unplaced = if l.fits then some l.unplaced else none := by
  rw [toOption_ofTree, items?_tree raw written]
  cases l.fits with
  | false => rfl
  | true =>
    have constants : (l.constants.map Item.constant
        ++ l.lines.map fun line => Item.line line.unplaced).filterMap Item.constant? = l.constants := by
      rw [List.filterMap_append, List.filterMap_map, List.filterMap_map]
      simp [Function.comp_def, Item.constant?]
    have lines : (l.constants.map Item.constant
        ++ l.lines.map fun line => Item.line line.unplaced).filterMap Item.line?
          = l.lines.map Line.unplaced := by
      rw [List.filterMap_append, List.filterMap_map, List.filterMap_map]
      simp [Function.comp_def, Item.line?]
    exact congrArg some (congr (congrArg Listing.mk constants) lines)

end Listing

/-! ## Shaken trees -/

theorem shakeList_map {α : Type} {f g : α → Tree} {s : Shake} {as : List α}
    (each : ∀ a ∈ as, s.shakeInner (f a) = [g a]) : s.shakeList (as.map f) = as.map g := by
  induction as with
  | nil => rfl
  | cons a as ih =>
    obtain ⟨first, others⟩ := List.forall_mem_cons.1 each
    rw [List.map_cons, Shake.shakeList, first, ih others]
    rfl

theorem shakeInner_operand (o : Operand) : language.shaker.shakeInner (o.tree true) = [o.tree false] := by
  cases o with
  | int value => cases value <;> rfl
  | register | label | constant => rfl

theorem shakeInner_mnemonic (mnemonic : String) (count : Nat) :
    language.shaker.shakeInner (mnemonicTree mnemonic count) = [mnemonicTree mnemonic count] := by
  unfold mnemonicTree mnemonicRule
  split <;> rfl

/-- The tree that says that something is a line is taken out. -/
theorem shakeInner_item (line : Line) :
    language.shaker.shakeInner (line.item true) = [line.item false] := by
  have inner : language.shaker.shakeInner (line.tree true) = [line.tree false] := by
    cases line with
    | label name span => rfl
    | instruction mnemonic operands span =>
      have below : language.shaker.shakeList (operands.map (Operand.tree true))
          = operands.map (Operand.tree false) := shakeList_map fun o _ => shakeInner_operand o
      rw [Line.tree, Shake.shakeInner, Shake.shakeList, shakeInner_mnemonic, below]
      rfl
  rw [Line.item, if_pos rfl, Shake.shakeInner, Shake.shakeList, inner]
  show [Shake.inheritLabel none (line.tree false)] = [line.tree false]
  rw [Shake.inheritLabel_none]

/-- The tree that holds a repetition is taken out. -/
theorem shakeList_held {s : Shake} {name : String} (spliced : s.isSpliced name) (ts : List Tree) :
    s.shakeList (held true name ts) = s.shakeList ts := by
  rw [held, if_pos rfl, Shake.shakeList, Shake.shakeInner, if_pos spliced, Shake.shakeList,
    List.append_nil]
  exact List.map_id'' (Shake.inheritLabel_none ·) _

theorem shakeInner_section {s : Shake} (unchained : s.chain = []) {name header repeated : String}
    (kept : s.isSpliced name = false) (spliced : s.isSpliced repeated) {ts us : List Tree}
    (each : s.shakeList ts = us) :
    s.shakeInner (.node name none (some 0) (.ofToken (mark header) :: held true repeated ts))
      = [.node name none (some 0) (.ofToken (mark header) :: held false repeated us)] := by
  have absorbed (children : List Tree) : s.absorb name children = children := by
    simp [Shake.absorb, unchained]
  rw [Shake.shakeInner, kept, Shake.shakeList, shakeList_held spliced, each, absorbed]
  rfl

/-- **Shaking** the raw tree of a listing gives the other one. -/
theorem shake_tree (l : Listing) : language.shake (l.tree true) = l.tree false := by
  have constants : language.shaker.shakeList (l.constants.map constantTree)
      = l.constants.map constantTree := shakeList_map fun _ _ => rfl
  have lines : language.shaker.shakeList (l.lines.map (Line.item true))
      = l.lines.map (Line.item false) := shakeList_map fun line _ => shakeInner_item line
  have unchained : language.shaker.chain = [] := rfl
  have data : language.shaker.shakeInner (.node "data" none (some 0)
      (.ofToken (mark ".data") :: held true "constant*" (l.constants.map constantTree))) = _ :=
    shakeInner_section unchained (by decide) (by decide) constants
  have code : language.shaker.shakeInner (.node "code" none (some 0)
      (.ofToken (mark ".code") :: held true "line*" (l.lines.map (Line.item true)))) = _ :=
    shakeInner_section unchained (by decide) (by decide) lines
  have root (children : List Tree) : language.shake (.node "a" none (some 0) children)
      = .node "a" none (some 0) (language.shaker.shakeList children) := rfl
  rw [Listing.tree, root, held, if_pos rfl, List.singleton_append, Shake.shakeList,
    Shake.shakeInner, if_pos (by decide), Shake.shakeList, data, Shake.shakeList, Shake.shakeList,
    code]
  rfl

namespace Listing

variable {l : Listing}

/-- **What is read in the source of a listing**, raw or shaken, is the listing, but for where
its lines stand, if its numbers are ones that can be read, and else is none. -/
theorem reread (written : ∀ line ∈ l.lines, line.Written) {t u : Tree}
    (parsed : language.parse l.source = .ok t) (form : u = t ∨ u = language.shake t) :
    (ofTree u).toOption.map unplaced = if l.fits then some l.unplaced else none := by
  obtain ⟨t', parsed', same⟩ := parse_source written
  obtain rfl := Except.ok.inj (parsed'.symm.trans parsed)
  rw [← ofTree_unplaced]
  rcases form with rfl | rfl
  · rw [same, ofTree_unplaced, ofTree_tree true written]
  · rw [Language.shake, ← Shake.shake_unplaced, same, Shake.shake_unplaced, ofTree_unplaced]
    show (ofTree (language.shake (l.tree true))).toOption.map unplaced = _
    rw [shake_tree, ofTree_tree false written]

end Listing

end Polyglot.Assembly
