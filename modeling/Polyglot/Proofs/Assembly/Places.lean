import Polyglot.Assembly.Assemble
import Polyglot.Proofs.Success
import Polyglot.Proofs.Tree.Unplaced

/-!
# Where lines stand

A line knows the stretch of source it comes from, so that an error can say where it is.
Nothing else depends on it: trees that agree have the same listing up to where its lines
stand (`Listing.ofTree_unplaced`), and the program is the same wherever they stand
(`Listing.assemble_unplaced`).
-/

namespace Polyglot.Assembly

open Polyglot.Source

/-- The line, put at the start of the source. -/
def Line.unplaced : Line → Line
  | label name _ => label name .start
  | instruction mnemonic operands _ => instruction mnemonic operands .start

/-- The listing, with all lines put at the start of the source. -/
def Listing.unplaced (l : Listing) : Listing := { l with lines := l.lines.map Line.unplaced }

/-- The item, put at the start of the source. -/
def Item.unplaced : Item → Item
  | constant text => constant text
  | line l => line l.unplaced

/-! ## Reading -/

theorem findSome?_int?_unplaced (ts : List Token) :
    (ts.map Token.unplaced).findSome? Token.int? = ts.findSome? Token.int? := by
  rw [List.findSome?_map]
  rfl

theorem integerOf_unplaced (t : Tree) :
    (integerOf t.unplaced).toOption = (integerOf t).toOption := by
  unfold integerOf
  rw [Tree.tokens_unplaced, findSome?_int?_unplaced]
  split <;> rfl

theorem isMinus_unplaced (t : Tree) : isMinus t.unplaced = isMinus t := by
  rw [isMinus, isMinus, Tree.token?_unplaced]
  cases t.token? <;> rfl

theorem isNegative_unplaced (t : Tree) : isNegative t.unplaced = isNegative t := by
  unfold isNegative
  rw [Tree.children_unplaced, List.head?_map]
  cases t.children.head? with
  | none => rfl
  | some c =>
    dsimp only [Option.map_some]
    rw [isMinus_unplaced, Tree.children_unplaced, List.head?_map]
    cases c.children.head? with
    | none => rfl
    | some d => simp [isMinus_unplaced]

theorem operandOf_unplaced (t : Tree) :
    (operandOf t.unplaced).toOption = (operandOf t).toOption := by
  unfold operandOf
  rw [Tree.children_unplaced, List.head?_map]
  cases t.children.head? with
  | none => rfl
  | some inner =>
    dsimp only [Option.map_some]
    rw [Tree.name_unplaced, Tree.text_unplaced, isNegative_unplaced]
    split
    · rfl
    split
    · simp [integerOf_unplaced]
    split
    · simp [integerOf_unplaced]
    · rfl

theorem labeled?_unplaced (t : Tree) (label : String) :
    t.unplaced.labeled? label = (t.labeled? label).map Tree.unplaced := by
  unfold Tree.labeled?
  rw [Tree.children_unplaced, List.find?_map]
  congr 2
  funext c
  exact congrArg (· == some label) (Tree.label_unplaced c)

theorem instructionOf_unplaced (t : Tree) :
    (instructionOf t.unplaced).toOption.map Line.unplaced
      = (instructionOf t).toOption.map Line.unplaced := by
  have operands : ((t.unplaced.children.filter (·.name == "operand")).mapM operandOf).toOption
      = ((t.children.filter (·.name == "operand")).mapM operandOf).toOption := by
    rw [Except.toOption_mapM, Except.toOption_mapM, Tree.children_unplaced, List.filter_map]
    have same : (fun t : Tree => t.name == "operand") ∘ Tree.unplaced = (·.name == "operand") :=
      funext fun t => congrArg (· == "operand") t.name_unplaced
    rw [same, List.mapM_map]
    exact congrArg (List.mapM · _) (funext operandOf_unplaced)
  have mnemonic : (t.unplaced.labeled? "op").map Tree.text = (t.labeled? "op").map Tree.text := by
    rw [labeled?_unplaced, Option.map_map]
    exact congrArg (Option.map · _) (funext Tree.text_unplaced)
  unfold instructionOf
  rw [Except.toOption_bind, Except.toOption_bind, operands, mnemonic]
  cases ((t.children.filter (·.name == "operand")).mapM operandOf).toOption <;> rfl

theorem itemOf?_unplaced (t : Tree) :
    (itemOf? t.unplaced).map (fun item => item.toOption.map Item.unplaced)
      = (itemOf? t).map fun item => item.toOption.map Item.unplaced := by
  unfold itemOf?
  rw [Tree.name_unplaced]
  split
  · have token : t.unplaced.token?.bind Token.str? = t.token?.bind Token.str? := by
      simp [Option.bind_map, Function.comp_def]
    rw [token]
    cases t.token?.bind Token.str? <;> rfl
  split
  · have head : t.unplaced.tokens.head?.map Token.lexeme = t.tokens.head?.map Token.lexeme := by
      rw [Tree.tokens_unplaced, List.head?_map, Option.map_map]
      rfl
    rw [head]
    rfl
  split
  · have item : Item.unplaced ∘ Item.line = Item.line ∘ Line.unplaced := rfl
    simp only [Option.map_some, Except.toOption_map, Option.map_map, item]
    rw [← Option.map_map, instructionOf_unplaced, Option.map_map]
  · rfl

/-- The items of a tree without their places, if it has any. -/
def items? (t : Tree) : Option (List Item) := (collect t).toOption.map (List.map Item.unplaced)

/-- The items of a list of trees without their places, if they have any. -/
def itemsOfList? (ts : List Tree) : Option (List Item) :=
  (collectList ts).toOption.map (List.map Item.unplaced)

@[simp] theorem itemsOfList?_nil : itemsOfList? [] = some [] := rfl

@[simp] theorem itemsOfList?_cons (t : Tree) (ts : List Tree) :
    itemsOfList? (t :: ts) = (items? t).bind fun found => (itemsOfList? ts).map (found ++ ·) := by
  unfold itemsOfList? items?
  rw [collectList, Except.toOption_bind]
  cases (collect t).toOption with
  | none => rfl
  | some found =>
    dsimp only [Option.bind_some, Option.map_some]
    rw [Except.toOption_bind]
    cases (collectList ts).toOption with
    | none => rfl
    | some rest =>
      show some ((found ++ rest).map Item.unplaced) = _
      rw [List.map_append]
      rfl

theorem itemsOfList?_append (ts us : List Tree) :
    itemsOfList? (ts ++ us) = (itemsOfList? ts).bind fun found => (itemsOfList? us).map (found ++ ·) := by
  induction ts with
  | nil => simp
  | cons t ts ih =>
    rw [List.cons_append, itemsOfList?_cons, itemsOfList?_cons, ih]
    cases items? t with
    | none => rfl
    | some found =>
      cases itemsOfList? ts with
      | none => rfl
      | some found' => cases itemsOfList? us <;> simp

theorem items?_eq (t : Tree) :
    items? t = match (itemOf? t).map fun item => item.toOption.map Item.unplaced with
      | some item => item.map ([·])
      | none => itemsOfList? t.children := by
  have single (item : Except AssemblyError Item) :
      (item.map ([·])).toOption.map (List.map Item.unplaced)
        = (item.toOption.map Item.unplaced).map ([·]) := by
    cases item <;> rfl
  unfold items?
  cases t with
  | leaf name label terminal token =>
    rw [collect]
    cases itemOf? (.leaf name label terminal token) with
    | none => rfl
    | some item => exact single item
  | node name label choice children =>
    rw [collect]
    cases itemOf? (.node name label choice children) with
    | none => rfl
    | some item => exact single item

mutual

theorem items?_unplaced (t : Tree) : items? t.unplaced = items? t := by
  rw [items?_eq, items?_eq, itemOf?_unplaced, Tree.children_unplaced]
  cases t with
  | leaf => rfl
  | node name label choice children => rw [Tree.children, itemsOfList?_unplaced children]

theorem itemsOfList?_unplaced (ts : List Tree) :
    itemsOfList? (ts.map Tree.unplaced) = itemsOfList? ts := by
  cases ts with
  | nil => rfl
  | cons t ts =>
    rw [List.map_cons, itemsOfList?_cons, itemsOfList?_cons, items?_unplaced t,
      itemsOfList?_unplaced ts]

end

namespace Item

/-- The text of the data section, if the item is one. -/
def constant? : Item → Option String
  | constant text => some text
  | line _ => none

/-- The line, if the item is one. -/
def line? : Item → Option Line
  | constant _ => none
  | line l => some l

end Item

/-- **The listing of a tree** without the places of its lines has the items of the tree. -/
theorem Listing.toOption_ofTree (t : Tree) :
    (ofTree t).toOption.map unplaced
      = (items? t).map fun items => ⟨items.filterMap Item.constant?, items.filterMap Item.line?⟩ := by
  unfold ofTree items?
  rw [Except.toOption_bind]
  cases (collect t).toOption with
  | none => rfl
  | some items =>
    have constants : items.filterMap Item.constant?
        = (items.map Item.unplaced).filterMap Item.constant? := by
      rw [List.filterMap_map]
      exact congrArg (List.filterMap · items) (funext fun item => by cases item <;> rfl)
    have lines : (items.filterMap Item.line?).map Line.unplaced
        = (items.map Item.unplaced).filterMap Item.line? := by
      rw [List.filterMap_map, List.map_filterMap]
      exact congrArg (List.filterMap · items) (funext fun item => by cases item <;> rfl)
    exact congrArg some (congr (congrArg Listing.mk constants) lines)

/-- Trees that agree have the same listing, up to where its lines stand. -/
theorem Listing.ofTree_unplaced (t : Tree) :
    (ofTree t.unplaced).toOption.map unplaced = (ofTree t).toOption.map unplaced := by
  rw [toOption_ofTree, toOption_ofTree, items?_unplaced]

/-! ## Assembling -/

section

variable (span span' : Span)

theorem toOption_checkKinds (mnemonic : String) (position : Nat) (kinds : List Kind)
    (operands : List Operand) :
    (checkKinds mnemonic span position kinds operands).toOption
      = (checkKinds mnemonic span' position kinds operands).toOption := by
  induction kinds generalizing position operands with
  | nil => rfl
  | cons kind kinds ih =>
    cases operands with
    | nil => rfl
    | cons operand operands =>
      rw [checkKinds, checkKinds]
      split
      · exact ih (position + 1) operands
      · rfl

theorem toOption_check (mnemonic : String) (operands : List Operand) :
    (check mnemonic operands span).toOption = (check mnemonic operands span').toOption := by
  unfold check
  cases signature? mnemonic with
  | none => rfl
  | some kinds =>
    dsimp only
    split
    · rfl
    · exact toOption_checkKinds span span' mnemonic 1 kinds operands

theorem toOption_ofLine (mnemonic : String) (operands : List Operand) :
    (Command.ofLine mnemonic operands span).toOption
      = (Command.ofLine mnemonic operands span').toOption := by
  unfold Command.ofLine
  rw [Except.toOption_bind, Except.toOption_bind, toOption_check span span']
  refine congrArg (Option.bind _) (funext fun _ => ?_)
  cases Command.of? mnemonic operands <;> rfl

theorem toOption_lower (s : Scope) (site : Nat) (c : Command) :
    (s.lower site span c).toOption = (s.lower site span' c).toOption := by
  have label (name : String) :
      (s.labelOffset name site span).toOption = (s.labelOffset name site span').toOption := by
    unfold Scope.labelOffset
    cases s.labels.lookup name <;> rfl
  have constant (index : Nat) :
      (s.constantOffset index site span).toOption = (s.constantOffset index site span').toOption := by
    unfold Scope.constantOffset
    cases constantStart? s.constants index <;> rfl
  unfold Scope.lower
  cases c with
  | put dst source => cases source <;> simp [label, constant]
  | jumpTo target => cases target <;> simp [label]
  | jumpToIf target condition => cases target <;> simp [label]
  | _ => simp

theorem toOption_encodeFrom (index : Nat) (is : List Machine.Instruction) :
    (encodeFrom span index is).toOption = (encodeFrom span' index is).toOption := by
  induction is generalizing index with
  | nil => rfl
  | cons i is ih => simp [encodeFrom, ih]

end

/-- The command, put at the start of the source. -/
def Placed.unplaced (p : Placed) : Placed := { p with span := .start }

/-- The outline, with all commands put at the start of the source. -/
def Outline.unplaced (o : Outline) : Outline := { o with commands := o.commands.map Placed.unplaced }

theorem toOption_outlineFrom (labels : List (String × Nat)) (site : Nat) (lines : List Line) :
    (outlineFrom labels site (lines.map Line.unplaced)).toOption
      = (outlineFrom labels site lines).toOption.map Outline.unplaced := by
  induction lines generalizing labels site with
  | nil => rfl
  | cons line lines ih =>
    cases line with
    | label name span =>
      rw [List.map_cons, Line.unplaced, outlineFrom, outlineFrom]
      split
      · rfl
      · exact ih ..
    | instruction mnemonic operands span =>
      rw [List.map_cons, Line.unplaced, outlineFrom, outlineFrom, Except.toOption_bind,
        Except.toOption_bind, toOption_ofLine .start span]
      cases (Command.ofLine mnemonic operands span).toOption with
      | none => rfl
      | some command =>
        dsimp only [Option.bind_some]
        rw [Except.toOption_bind, Except.toOption_bind, ih]
        cases (outlineFrom labels (site + command.size) lines).toOption <;> rfl

theorem toOption_generateFrom (s : Scope) (site : Nat) (ps : List Placed) :
    (generateFrom s site (ps.map Placed.unplaced)).toOption = (generateFrom s site ps).toOption := by
  induction ps generalizing site with
  | nil => rfl
  | cons p ps ih =>
    rw [List.map_cons, Placed.unplaced, generateFrom, generateFrom]
    simp only [Except.toOption_bind, toOption_lower .start p.span,
      toOption_encodeFrom .start p.span, ih]

/-- **The program of a listing** does not depend on where its lines stand. -/
theorem Listing.assemble_unplaced (l : Listing) :
    l.unplaced.assemble.toOption = l.assemble.toOption := by
  unfold assemble outline unplaced
  dsimp only
  rw [Except.toOption_bind, Except.toOption_bind, toOption_outlineFrom]
  cases (outlineFrom [] 0 l.lines).toOption with
  | none => rfl
  | some found =>
    dsimp only [Option.map_some, Option.bind_some, Outline.unplaced]
    rw [Except.toOption_bind, Except.toOption_bind, toOption_generateFrom]

end Polyglot.Assembly
