import Polyglot.Proofs.Parsing.Derivation
import Polyglot.Tree.Layout
import Polyglot.Tree.Shake
import Mathlib.Data.List.Forall2

/-!
# Trees without places

Two trees agree if they are the same but for the places of their tokens. So they agree just
if they become equal when all tokens are put at the same place (`Tree.agrees_iff`), and
what does not look at places gives the same for a tree as for the tree without places:
this is so for shaking and for printing.
-/

namespace Polyglot

/-- The token, put at the start of the source. -/
def Token.unplaced (t : Token) : Token := { t with span := .start }

theorem Token.agrees_iff {t u : Token} : t.agrees u ↔ t.unplaced = u.unplaced := by
  simp [agrees, unplaced, and_assoc]

@[simp] theorem Token.type_unplaced (t : Token) : t.unplaced.type = t.type := rfl

@[simp] theorem Token.isEmpty_unplaced (t : Token) : t.unplaced.isEmpty = t.isEmpty := rfl

@[simp] theorem Token.lexeme_unplaced (t : Token) : t.unplaced.lexeme = t.lexeme := rfl

@[simp] theorem Token.int?_unplaced (t : Token) : t.unplaced.int? = t.int? := rfl

@[simp] theorem Token.str?_unplaced (t : Token) : t.unplaced.str? = t.str? := rfl

/-- Lists of tokens agree, one by one, just if they become equal without places. -/
theorem forall₂_agrees_iff {ts us : List Token} :
    List.Forall₂ (fun t u => t.agrees u) ts us
      ↔ ts.map Token.unplaced = us.map Token.unplaced := by
  constructor
  · intro h
    induction h with
    | nil => rfl
    | cons same _ ih => rw [List.map_cons, List.map_cons, Token.agrees_iff.1 same, ih]
  · intro eq
    induction ts generalizing us with
    | nil =>
      obtain rfl := List.map_eq_nil_iff.1 eq.symm
      exact .nil
    | cons t ts ih =>
      obtain ⟨u, us, rfl, same, rest⟩ := List.map_eq_cons_iff.1 eq.symm
      exact .cons (Token.agrees_iff.2 same.symm) (ih rest.symm)

namespace Tree

/-- The tree with all tokens put at the start of the source. -/
def unplaced : Tree → Tree
  | leaf name label terminal token => leaf name label terminal token.unplaced
  | node name label choice children => node name label choice (children.map unplaced)

@[simp] theorem unplaced_leaf (name : String) (label terminal : Option String) (token : Token) :
    (leaf name label terminal token).unplaced = leaf name label terminal token.unplaced := by
  rw [unplaced]

@[simp] theorem unplaced_node (name : String) (label : Option String) (choice : Option Nat)
    (children : List Tree) :
    (node name label choice children).unplaced
      = node name label choice (children.map unplaced) := by
  rw [unplaced]

mutual

/-- **Trees agree** just if they are equal without places. -/
theorem agrees_iff (t u : Tree) : t.agrees u ↔ t.unplaced = u.unplaced := by
  cases t with
  | leaf name label terminal token =>
    cases u with
    | leaf => simp [agrees, Token.agrees_iff, and_assoc]
    | node => simp [agrees]
  | node name label choice children =>
    cases u with
    | leaf => simp [agrees]
    | node name' label' choice' children' =>
      simp [agrees, agreesOnList_iff children children', and_assoc]

theorem agreesOnList_iff (ts us : List Tree) :
    agreesOnList ts us ↔ ts.map unplaced = us.map unplaced := by
  cases ts with
  | nil => cases us <;> simp [agreesOnList]
  | cons t ts =>
    cases us with
    | nil => simp [agreesOnList]
    | cons u us => simp [agreesOnList, agrees_iff t u, agreesOnList_iff ts us]

end

@[simp] theorem name_unplaced (t : Tree) : t.unplaced.name = t.name := by
  cases t <;> simp [name]

@[simp] theorem label_unplaced (t : Tree) : t.unplaced.label = t.label := by
  cases t <;> simp [label]

@[simp] theorem children_unplaced (t : Tree) : t.unplaced.children = t.children.map unplaced := by
  cases t <;> simp [children]

@[simp] theorem token?_unplaced (t : Tree) : t.unplaced.token? = t.token?.map Token.unplaced := by
  cases t <;> simp [token?]

@[simp] theorem choice?_unplaced (t : Tree) : t.unplaced.choice? = t.choice? := by
  cases t <;> simp [choice?]

theorem unplaced_withLabel (label : Option String) (t : Tree) :
    (t.withLabel label).unplaced = t.unplaced.withLabel label := by
  cases t <;> simp [withLabel]

mutual

theorem tokens_unplaced (t : Tree) : t.unplaced.tokens = t.tokens.map Token.unplaced := by
  cases t with
  | leaf name label terminal token => simp
  | node name label choice children =>
    rw [unplaced_node, tokens_node, tokens_node, tokensOfList_unplaced]

theorem tokensOfList_unplaced (ts : List Tree) :
    (ts.map unplaced).flatMap tokens = (ts.flatMap tokens).map Token.unplaced := by
  cases ts with
  | nil => rfl
  | cons t ts =>
    rw [List.map_cons, List.flatMap_cons, List.flatMap_cons, List.map_append, tokens_unplaced t,
      tokensOfList_unplaced ts]

end

theorem text_unplaced (t : Tree) : t.unplaced.text = t.text := by
  unfold text solidTokens
  rw [tokens_unplaced, List.filter_map, List.map_map]
  rfl

end Tree

namespace Shake

variable (s : Shake)

theorem absorb_unplaced (name : String) (children : List Tree) :
    s.absorb name (children.map Tree.unplaced) = (s.absorb name children).map Tree.unplaced := by
  unfold absorb chained
  split
  · rw [List.getLast?_map]
    cases children.getLast? with
    | none => rfl
    | some last =>
      simp only [Option.map_some, Tree.name_unplaced]
      split
      · simp [List.map_dropLast]
      · rfl
  · rfl

theorem inheritLabel_unplaced (label : Option String) (t : Tree) :
    inheritLabel label t.unplaced = (inheritLabel label t).unplaced := by
  unfold inheritLabel
  rw [Tree.label_unplaced]
  split
  · rfl
  · exact (Tree.unplaced_withLabel ..).symm

mutual

theorem shakeInner_unplaced (t : Tree) :
    s.shakeInner t.unplaced = (s.shakeInner t).map Tree.unplaced := by
  cases t with
  | leaf name label terminal token => simp [shakeInner]
  | node name label choice children =>
    simp only [Tree.unplaced_node, shakeInner, shakeList_unplaced children]
    split
    · simp [inheritLabel_unplaced]
    · simp [absorb_unplaced]

theorem shakeList_unplaced (ts : List Tree) :
    s.shakeList (ts.map Tree.unplaced) = (s.shakeList ts).map Tree.unplaced := by
  cases ts with
  | nil => simp [shakeList]
  | cons t ts =>
    simp only [List.map_cons, shakeList, shakeInner_unplaced t, shakeList_unplaced ts,
      List.map_append]

end

/-- Shaking does not look at places. -/
theorem shake_unplaced (t : Tree) : s.shake t.unplaced = (s.shake t).unplaced := by
  cases t with
  | leaf name label terminal token => simp [shake]
  | node name label choice children => simp [shake, shakeList_unplaced, absorb_unplaced]

end Shake

namespace Layout

/-- Whether a layout looks at no places. -/
structure Blind (y : Layout) : Prop where
  /-- Not for the spaces. -/
  spaceBetween : ∀ t u, y.spaceBetween t.unplaced u.unplaced = y.spaceBetween t u
  /-- Not for what starts a line. -/
  newlineBefore : ∀ t, y.newlineBefore t.unplaced = y.newlineBefore t
  /-- Not for what ends a line. -/
  newlineAfter : ∀ t, y.newlineAfter t.unplaced = y.newlineAfter t
  /-- Not for what starts a block. -/
  indentAfter : ∀ t, y.indentAfter t.unplaced = y.indentAfter t
  /-- Not for what ends a block. -/
  dedentBefore : ∀ t, y.dedentBefore t.unplaced = y.dedentBefore t

/-- The pen, with the last token put at the start of the source. -/
def Pen.unplaced (pen : Pen) : Pen := { pen with last := pen.last.map Token.unplaced }

theorem Blind.push_unplaced {y : Layout} (blind : y.Blind) (pen : Pen) (t : Token) :
    y.push pen.unplaced t.unplaced = (y.push pen t).unplaced := by
  have separated (pen : Pen) : y.separate pen.unplaced t.unplaced = (y.separate pen t).unplaced := by
    obtain ⟨output, column, indent, lineEnded, last⟩ := pen
    cases last with
    | none => rfl
    | some last =>
      simp only [separate, Pen.unplaced, Option.map_some, blind.newlineBefore, blind.spaceBetween]
      split
      · rfl
      split
      · show (if column + 1 + t.lexeme.length > y.width then _ else _) = _
        split <;> rfl
      · rfl
  have indented (pen : Pen) : y.indentLine pen.unplaced = (y.indentLine pen).unplaced := by
    unfold indentLine
    show (if pen.column = 0 then _ else _) = _
    split <;> rfl
  unfold push
  rw [Token.isEmpty_unplaced, blind.dedentBefore, blind.indentAfter, blind.newlineAfter]
  split
  · rfl
  · have dedented : (if y.dedentBefore t then { pen.unplaced with indent := pen.unplaced.indent - 1 }
          else pen.unplaced)
        = (if y.dedentBefore t then { pen with indent := pen.indent - 1 } else pen).unplaced := by
      split <;> rfl
    rw [dedented]
    dsimp only
    rw [separated, indented]
    rfl

/-- **Printing** does not look at places. -/
theorem Blind.printTokens_unplaced {y : Layout} (blind : y.Blind) (ts : List Token) :
    y.printTokens (ts.map Token.unplaced) = y.printTokens ts := by
  have fold (pen : Pen) :
      (ts.map Token.unplaced).foldl y.push pen.unplaced = (ts.foldl y.push pen).unplaced := by
    induction ts generalizing pen with
    | nil => rfl
    | cons t ts ih => rw [List.map_cons, List.foldl_cons, List.foldl_cons, blind.push_unplaced, ih]
  rw [printTokens, printTokens]
  show ((ts.map Token.unplaced).foldl y.push (Pen.unplaced {})).output = _
  rw [fold]
  rfl

theorem Blind.print_unplaced {y : Layout} (blind : y.Blind) (t : Tree) :
    y.print t.unplaced = y.print t := by
  rw [print, print, Tree.tokens_unplaced, blind.printTokens_unplaced]

end Layout

end Polyglot
