import Polyglot.Assembly.Assemble
import Polyglot.Proofs.Success
import Polyglot.Proofs.Tree.Spans

/-!
# What errors of assembling are about

Every error of assembling a listing is about one of its lines (`Listing.blames_assemble`), and a line that was
read from a tree has the span of a tree in it, as have the errors of reading (`Listing.blames_ofTree`). So whatever
error there is with a tree, it is about something that starts where one of its tokens does (`blames_assemble`).
-/

namespace Polyglot.Assembly

open Polyglot.Source
open Polyglot.Machine (Instruction InstructionError)

/-- Whether the span that an error is about has a property, if there is an error. -/
def Blames {α : Type} (P : Span → Prop) (x : Except AssemblyError α) : Prop := ∀ e, x = .error e → P e.span

namespace Blames

variable {α β : Type} {P Q : Span → Prop} {x : Except AssemblyError α}

theorem ok {a : α} : Blames P (.ok a) := by rintro _ ⟨⟩

theorem error {e : AssemblyError} (holds : P e.span) : Blames P (.error e : Except AssemblyError α) := by
  rintro _ ⟨⟩
  exact holds

theorem imp (h : Blames Q x) (le : ∀ span, Q span → P span) : Blames P x :=
  fun e failed => le _ (h e failed)

theorem bind {f : α → Except AssemblyError β} (first : Blames P x) (next : ∀ a, x = .ok a → Blames P (f a)) :
    Blames P (x >>= f) := by
  intro e failed
  obtain failed | ⟨a, done, failed⟩ := Except.bind_eq_error.1 failed
  · exact first e failed
  · exact next a done e failed

theorem map {f : α → β} (h : Blames P x) : Blames P (x.map f) :=
  fun e failed => h e (Except.map_eq_error.1 failed)

theorem mapM {f : α → Except AssemblyError β} {as : List α} (each : ∀ a ∈ as, Blames P (f a)) :
    Blames P (as.mapM f) := by
  induction as with
  | nil => exact ok
  | cons a as ih =>
    obtain ⟨first, others⟩ := List.forall_mem_cons.1 each
    rw [List.mapM_cons]
    exact first.bind fun _ _ => (ih others).bind fun _ _ => ok

theorem encoding {x : Except InstructionError α} {index : Nat} {span : Span} (holds : P span) :
    Blames P (x.mapError (.encoding index span)) := by
  cases x with
  | ok => exact ok
  | error => exact error holds

end Blames

section

variable {P : Span → Prop} {span : Span}

/-! ## Lines -/

/-- An error with an instruction is about the instruction. -/
theorem blames_ofLine (mnemonic : String) (operands : List Operand) (holds : P span) :
    Blames P (Command.ofLine mnemonic operands span) := by
  have kindly (position : Nat) (kinds : List Kind) (operands : List Operand) :
      Blames P (checkKinds mnemonic span position kinds operands) := by
    induction kinds generalizing position operands with
    | nil => exact .ok
    | cons kind kinds ih =>
      cases operands with
      | nil => exact .ok
      | cons operand operands =>
        rw [checkKinds]
        split
        · exact ih (position + 1) operands
        · exact .error holds
  have checked : Blames P (check mnemonic operands span) := by
    unfold check
    split
    · exact .error holds
    · split
      · exact .error holds
      · exact kindly _ _ _
  refine checked.bind fun _ _ => ?_
  split
  · exact .ok
  · exact .error holds

/-- An error of the first pass is about a line. -/
theorem blames_outlineFrom {lines : List Line} (each : ∀ l ∈ lines, P l.span) (labels : List (String × Nat))
    (site : Nat) : Blames P (outlineFrom labels site lines) := by
  fun_induction outlineFrom labels site lines with
  | case1 => exact .ok
  | case2 => exact .error (each _ List.mem_cons_self)
  | case3 labels site name span lines _ ih => exact ih (List.forall_mem_cons.1 each).2
  | case4 labels site mnemonic operands span lines ih =>
    obtain ⟨first, others⟩ := List.forall_mem_cons.1 each
    exact (blames_ofLine mnemonic operands first).bind fun command _ => (ih command others).bind fun _ _ => .ok

/-- Every command comes from a line. -/
theorem span_of_outlineFrom {lines : List Line} (each : ∀ l ∈ lines, P l.span) {labels : List (String × Nat)}
    {site : Nat} {found : Outline} (done : outlineFrom labels site lines = .ok found) :
    ∀ p ∈ found.commands, P p.span := by
  fun_induction outlineFrom labels site lines generalizing found with
  | case1 =>
    cases done
    exact List.forall_mem_nil _
  | case2 => cases done
  | case3 labels site name span lines _ ih => exact ih (List.forall_mem_cons.1 each).2 done
  | case4 labels site mnemonic operands span lines ih =>
    obtain ⟨first, others⟩ := List.forall_mem_cons.1 each
    obtain ⟨command, -, done⟩ := Except.bind_eq_ok.1 done
    obtain ⟨rest, outlined, done⟩ := Except.bind_eq_ok.1 done
    cases done
    exact List.forall_mem_cons.2 ⟨first, ih command others outlined⟩

/-- An error with a command is about the line that it comes from. -/
theorem blames_lower (s : Scope) (site : Nat) (c : Command) (holds : P span) : Blames P (s.lower site span c) := by
  have label (name : String) : Blames P (s.labelOffset name site span) := by
    unfold Scope.labelOffset
    split
    · exact .ok
    · exact .error holds
  have constant (index : Nat) : Blames P (s.constantOffset index site span) := by
    unfold Scope.constantOffset
    split
    · exact .ok
    · exact .error holds
  cases c with
  | compute | isZero | copy | jump | jumpIf | sys | exit => exact .ok
  | computeWith | load | store | sysOf | exitWith => exact .bind (.encoding holds) fun _ _ => .ok
  | storeInt => exact .bind (.encoding holds) fun _ _ => .bind (.encoding holds) fun _ _ => .ok
  | put dst source =>
    cases source with
    | int => exact .bind (.encoding holds) fun _ _ => .ok
    | label name => exact (label name).bind fun _ _ => .bind (.encoding holds) fun _ _ => .ok
    | constant index => exact (constant index).bind fun _ _ => .bind (.encoding holds) fun _ _ => .ok
  | jumpTo target | jumpToIf target condition =>
    cases target with
    | label name => exact .bind ((label name).bind fun _ _ => .encoding holds) fun _ _ => .ok
    | offset => exact .bind (.encoding holds) fun _ _ => .ok

theorem blames_encodeFrom (holds : P span) (index : Nat) (is : List Instruction) :
    Blames P (encodeFrom span index is) := by
  induction is generalizing index with
  | nil => exact .ok
  | cons i is ih => exact .bind (.encoding holds) fun _ _ => (ih (index + 1)).bind fun _ _ => .ok

/-- An error of the second pass is about a line that a command comes from. -/
theorem blames_generateFrom (s : Scope) (site : Nat) {ps : List Placed} (each : ∀ p ∈ ps, P p.span) :
    Blames P (generateFrom s site ps) := by
  induction ps generalizing site with
  | nil => exact .ok
  | cons p ps ih =>
    obtain ⟨first, others⟩ := List.forall_mem_cons.1 each
    exact (blames_lower s site p.command first).bind fun instructions _ =>
      (blames_encodeFrom first site instructions).bind fun words _ =>
        (ih (site + words.length) others).bind fun _ _ => .ok

/-- **An error with a listing** is about one of its lines. -/
theorem Listing.blames_assemble (l : Listing) (each : ∀ line ∈ l.lines, P line.span) : Blames P l.assemble :=
  (blames_outlineFrom each [] 0).bind fun _ outlined =>
    (blames_generateFrom _ 0 (span_of_outlineFrom each outlined)).bind fun _ _ => .ok

end

/-! ## Reading listings -/

section

variable {t u : Tree}

theorem blames_integerOf (t : Tree) : Blames (·.StartsIn t) (integerOf t) := by
  unfold integerOf
  split
  · exact .ok
  · exact .error t.startsIn_span

theorem blames_operandOf (t : Tree) : Blames (·.StartsIn t) (operandOf t) := by
  unfold operandOf
  split
  · exact .error t.startsIn_span
  · rename_i inner found
    have number : Blames (·.StartsIn t) (integerOf inner) :=
      (blames_integerOf inner).imp fun _ starts => starts.above (List.mem_of_head? found)
    split
    · exact .ok
    split
    · exact number.bind fun _ _ => .ok
    split
    · exact number.bind fun _ _ => .ok
    · exact .error t.startsIn_span

theorem blames_instructionOf (t : Tree) : Blames (·.StartsIn t) (instructionOf t) := by
  refine .bind (.mapM fun u mem => ?_) fun _ _ => .ok
  exact (blames_operandOf u).imp fun _ starts => starts.above (List.mem_of_mem_filter mem)

theorem span_of_instructionOf {l : Line} (done : instructionOf t = .ok l) : l.span = t.span := by
  obtain ⟨operands, -, done⟩ := Except.bind_eq_ok.1 done
  cases done
  rfl

/-- Whether lines among items, and errors, have spans that start in a tree. -/
structure Stands (t : Tree) (x : Except AssemblyError (List Item)) : Prop where
  /-- Errors do. -/
  errors : Blames (·.StartsIn t) x
  /-- Lines do. -/
  lines : ∀ items, x = .ok items → ∀ l, .line l ∈ items → l.span.StartsIn t

namespace Stands

theorem nil : Stands t (.ok []) where
  errors := .ok
  lines := by
    rintro _ ⟨⟩ l mem
    cases mem

theorem above {x : Except AssemblyError (List Item)} (h : Stands u x) (mem : u ∈ t.children) : Stands t x where
  errors := h.errors.imp fun _ starts => starts.above mem
  lines items done l among := (h.lines items done l among).above mem

/-- The item of a tree has the span of the tree. -/
theorem of_itemOf? {item : Except AssemblyError Item} (is : itemOf? t = some item) : Stands t (item.map ([·])) := by
  -- errors with the item, and the line that it may be, are about the whole tree
  have single (x : Except AssemblyError Item) (errors : Blames (·.StartsIn t) x)
      (lines : ∀ l, x = .ok (.line l) → l.span = t.span) : Stands t (x.map ([·])) := by
    refine ⟨errors.map, fun items done l mem => ?_⟩
    obtain ⟨i, made, rfl⟩ := Except.map_eq_ok.1 done
    obtain rfl := List.mem_singleton.1 mem
    rw [lines l made]
    exact t.startsIn_span
  unfold itemOf? at is
  split at is
  · cases is
    split
    · exact single _ .ok (by rintro l ⟨⟩)
    · exact single _ (.error t.startsIn_span) (by rintro l ⟨⟩)
  split at is
  · cases is
    exact single _ .ok (by rintro l ⟨⟩; rfl)
  split at is
  · cases is
    refine single _ (blames_instructionOf t).map fun l made => ?_
    obtain ⟨l', done, same⟩ := Except.map_eq_ok.1 made
    cases same
    exact span_of_instructionOf done
  · cases is

end Stands

mutual

/-- **The lines of a tree**, and the errors with it, have spans that start in the tree. -/
theorem stands_collect (t : Tree) : Stands t (collect t) := by
  cases t with
  | leaf name label terminal token =>
    rw [collect]
    split
    · exact .of_itemOf? ‹_›
    · exact .nil
  | node name label choice children =>
    rw [collect]
    split
    · exact .of_itemOf? ‹_›
    · exact stands_collectList children fun u mem => mem

theorem stands_collectList (ts : List Tree) {whole : Tree} (sub : ts ⊆ whole.children) :
    Stands whole (collectList ts) := by
  cases ts with
  | nil => exact .nil
  | cons u ts =>
    obtain ⟨mem, others⟩ := List.cons_subset.1 sub
    have first := (stands_collect u).above mem
    have rest := stands_collectList ts others
    refine ⟨first.errors.bind fun _ _ => rest.errors.bind fun _ _ => .ok, fun items done l mem => ?_⟩
    obtain ⟨own, read, done⟩ := Except.bind_eq_ok.1 done
    obtain ⟨more, read', done⟩ := Except.bind_eq_ok.1 done
    cases done
    obtain mem | mem := List.mem_append.1 mem
    · exact first.lines own read l mem
    · exact rest.lines more read' l mem

end

theorem Listing.blames_ofTree (t : Tree) : Blames (·.StartsIn t) (Listing.ofTree t) :=
  (stands_collect t).errors.bind fun _ _ => .ok

theorem Listing.span_of_ofTree {l : Listing} (read : Listing.ofTree t = .ok l) :
    ∀ line ∈ l.lines, line.span.StartsIn t := by
  obtain ⟨items, collected, read⟩ := Except.bind_eq_ok.1 read
  cases read
  intro line mem
  obtain ⟨item, among, is⟩ := List.mem_filterMap.1 mem
  cases item with
  | constant text => cases is
  | line l =>
    cases is
    exact (stands_collect t).lines items collected line among

/-- **An error with a tree** is about something that starts where a token of the tree does. -/
theorem blames_assemble (t : Tree) : Blames (·.StartsIn t) (assemble t) :=
  (Listing.blames_ofTree t).bind fun l read => l.blames_assemble (Listing.span_of_ofTree read)

end

end Polyglot.Assembly
