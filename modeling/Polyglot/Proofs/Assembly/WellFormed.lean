import Polyglot.Proofs.Assembly.Places

/-!
# Well formed listings

A listing is well formed if its instructions are commands, no label is defined twice, and what
instructions refer to is there (`Listing.WellFormed`). All that can go wrong then is that a
number does not fit into the word of an instruction (`Listing.WellFormed.isEncoding`).
-/

namespace Polyglot.Assembly

open Polyglot.Source
open Polyglot.Machine (Instruction InstructionError)

/-! ## Labels and references -/

/-- The label that a line defines, if it does. -/
def Line.label? : Line → Option String
  | label name _ => some name
  | instruction .. => none

/-- The operands of a line. -/
def Line.operands : Line → List Operand
  | label .. => []
  | instruction _ operands _ => operands

/-- Whether a line passes the checks of the assembler. -/
def Line.isCommand : Line → Bool
  | label .. => true
  | instruction mnemonic operands _ => (Command.ofLine mnemonic operands .start).toOption.isSome

/-- The labels that lines define. -/
def labelsOf (lines : List Line) : List String := lines.filterMap Line.label?

/-- Whether an operand is there, given the labels and how many texts there are. -/
def Operand.IsThere (labels : List String) (count : Nat) : Operand → Prop
  | label name => name ∈ labels
  | constant index => index < count
  | _ => True

/-- Whether the lines of a listing are commands and refer to what is there. -/
structure Listing.WellFormed (l : Listing) : Prop where
  /-- All instructions are commands. -/
  commands : ∀ line ∈ l.lines, line.isCommand
  /-- No label is defined twice. -/
  distinct : (labelsOf l.lines).Nodup
  /-- What operands refer to is there. -/
  there : ∀ line ∈ l.lines, ∀ o ∈ line.operands, o.IsThere (labelsOf l.lines) l.constants.length

@[simp] theorem labelsOf_nil : labelsOf [] = [] := rfl

@[simp] theorem labelsOf_append (lines more : List Line) :
    labelsOf (lines ++ more) = labelsOf lines ++ labelsOf more := List.filterMap_append

/-- Where lines stand makes no difference. -/
theorem labelsOf_unplaced (lines : List Line) :
    labelsOf (lines.map Line.unplaced) = labelsOf lines := by
  rw [labelsOf, List.filterMap_map]
  exact congrArg (List.filterMap · lines) (funext fun line => by cases line <;> rfl)

/-- It makes no difference to whether a listing is well formed where its lines stand. -/
theorem Listing.wellFormed_unplaced {l : Listing} : l.unplaced.WellFormed ↔ l.WellFormed := by
  have commands (line : Line) : line.unplaced.isCommand = line.isCommand := by cases line <;> rfl
  have operands (line : Line) : line.unplaced.operands = line.operands := by cases line <;> rfl
  constructor
  · rintro ⟨isCommand, distinct, there⟩
    simp only [unplaced, labelsOf_unplaced, List.forall_mem_map, commands, operands] at *
    exact ⟨isCommand, distinct, there⟩
  · rintro ⟨isCommand, distinct, there⟩
    refine ⟨?_, ?_, ?_⟩ <;>
      simpa only [unplaced, labelsOf_unplaced, List.forall_mem_map, commands, operands]

/-! ## Commands -/

/-- The operand that a place refers to, if it does. -/
def Target.reference? : Target → Option Operand
  | label name => some (.label name)
  | offset _ => none

/-- The operand that a value refers to, if it does. -/
def Source.reference? : Source → Option Operand
  | int _ => none
  | label name => some (.label name)
  | constant index => some (.constant index)

/-- What a command refers to, as an operand. -/
def Command.reference? : Command → Option Operand
  | put _ source => source.reference?
  | jumpTo target => target.reference?
  | jumpToIf target _ => target.reference?
  | _ => none

theorem Command.reference_of_target {o r : Operand} {t : Target} (found : target? o = some t)
    (refers : t.reference? = some r) : r = o := by
  cases o with
  | register | constant => cases found
  | label name => cases found; cases refers; rfl
  | int value => cases found; cases refers

theorem Command.reference_of_source {o r : Operand} {value : Source} (found : source? o = some value)
    (refers : value.reference? = some r) : r = o := by
  cases o <;> cases found <;> cases refers <;> rfl

/-- Arithmetic refers to nothing. -/
theorem Command.reference_of_arithmetic {mnemonic : String} {operands : List Operand} {c : Command}
    (found : ofArithmetic? mnemonic operands = some c) : c.reference? = none := by
  unfold ofArithmetic? at found
  split at found
  · obtain ⟨o, -, rfl⟩ := Option.map_eq_some_iff.1 found
    rfl
  · obtain ⟨o, -, rfl⟩ := Option.map_eq_some_iff.1 found
    rfl
  · cases found

/-- What a command refers to is among the operands of its line. -/
theorem Command.reference_mem {mnemonic : String} {operands : List Operand} {span : Span}
    {c : Command} (checked : ofLine mnemonic operands span = .ok c) {o : Operand}
    (refers : c.reference? = some o) : o ∈ operands := by
  obtain ⟨-, -, checked⟩ := Except.bind_eq_ok.1 checked
  have found : of? mnemonic operands = some c := by
    cases made : of? mnemonic operands with
    | none => rw [made] at checked; cases checked
    | some c' => rw [made] at checked; exact congrArg some (Except.ok.inj checked)
  unfold of? at found
  split at found
  case h_3 =>
    obtain ⟨source, read, rfl⟩ := Option.map_eq_some_iff.1 found
    simp [reference_of_source read refers]
  case h_8 =>
    obtain ⟨target, read, rfl⟩ := Option.map_eq_some_iff.1 found
    simp [reference_of_target read refers]
  case h_10 =>
    obtain ⟨target, read, rfl⟩ := Option.map_eq_some_iff.1 found
    simp [reference_of_target read refers]
  case h_15 =>
    rw [reference_of_arithmetic found] at refers
    cases refers
  -- the other commands refer to nothing
  all_goals
    obtain rfl := Option.some.inj found
    cases refers

/-! ## Failures -/

/-- Whether an error is that an instruction has no word. -/
def AssemblyError.IsEncoding (e : AssemblyError) : Prop := ∃ index span source, e = .encoding index span source

section

variable {labels : List (String × Nat)} {s : Scope} {site : Nat} {span : Span} {e : AssemblyError}

theorem isSome_lookup_iff {name : String} :
    (labels.lookup name).isSome ↔ name ∈ labels.map Prod.fst := by
  rw [List.lookup_isSome_iff]
  simp

/-- The first pass goes through if all instructions are commands and no label is defined
twice, and finds the labels and the commands. -/
theorem exists_outlineFrom {lines : List Line} (commands : ∀ line ∈ lines, line.isCommand)
    (distinct : (labels.map Prod.fst ++ labelsOf lines).Nodup) :
    ∃ found, outlineFrom labels site lines = .ok found
      ∧ found.labels.map Prod.fst = labels.map Prod.fst ++ labelsOf lines
      ∧ ∀ p ∈ found.commands, ∃ line ∈ lines, ∀ o, p.command.reference? = some o → o ∈ line.operands := by
  induction lines generalizing labels site with
  | nil => exact ⟨_, rfl, (List.append_nil _).symm, nofun⟩
  | cons line lines ih =>
    obtain ⟨isCommand, others⟩ := List.forall_mem_cons.1 commands
    cases line with
    | label name span =>
      have moved : labels.map Prod.fst ++ labelsOf (.label name span :: lines)
          = (labels ++ [(name, site)]).map Prod.fst ++ labelsOf lines := by
        rw [List.map_append, List.append_assoc]
        rfl
      rw [moved] at distinct ⊢
      -- the label is none of those before it
      have fresh : ¬(labels.lookup name).isSome := by
        rw [isSome_lookup_iff]
        intro mem
        rw [List.map_append] at distinct
        have new := (List.nodup_append.1 (List.nodup_append.1 distinct).1).2.2
        exact new name mem name (List.mem_singleton_self _) rfl
      obtain ⟨found, outlined, same, refer⟩ := ih others distinct
      refine ⟨found, ?_, same, fun p mem => ?_⟩
      · rw [outlineFrom, if_neg fresh]
        exact outlined
      · obtain ⟨line, mem', rest⟩ := refer p mem
        exact ⟨line, List.mem_cons_of_mem _ mem', rest⟩
    | instruction mnemonic operands span =>
      obtain ⟨command, checked⟩ := Option.isSome_iff_exists.1 isCommand
      rw [toOption_ofLine .start span] at checked
      have checked := Except.toOption_eq_some.1 checked
      obtain ⟨found, outlined, same, refer⟩ := ih others distinct
      refine ⟨{ found with commands := ⟨command, span⟩ :: found.commands }, ?_, same, ?_⟩
      · rw [outlineFrom, checked]
        show (do
          let rest ← outlineFrom labels (site + command.size) lines
          return { rest with commands := ⟨command, span⟩ :: rest.commands }) = _
        rw [outlined]
        rfl
      · refine List.forall_mem_cons.2 ⟨⟨_, List.mem_cons_self .., fun o refers => ?_⟩, fun p mem => ?_⟩
        · exact Command.reference_mem checked refers
        · obtain ⟨line, mem', rest⟩ := refer p mem
          exact ⟨line, List.mem_cons_of_mem _ mem', rest⟩

/-- Making a word of a number fails only with the number. -/
theorem isEncoding_of_word {α : Type} {x : Except InstructionError α}
    (failed : x.mapError (.encoding site span) = .error e) : e.IsEncoding := by
  cases x with
  | error source => exact ⟨site, span, source, (Except.error.inj failed).symm⟩
  | ok a => cases failed

theorem exists_labelOffset {name : String} (there : name ∈ s.labels.map Prod.fst) :
    ∃ offset, s.labelOffset name site span = .ok offset := by
  obtain ⟨target, found⟩ := Option.isSome_iff_exists.1 (isSome_lookup_iff.2 there)
  exact ⟨_, by rw [Scope.labelOffset, found]⟩

theorem exists_constantOffset {index : Nat} (there : index < s.constants.length) :
    ∃ offset, s.constantOffset index site span = .ok offset := by
  rw [Scope.constantOffset, constantStart?, if_pos there]
  exact ⟨_, rfl⟩

/-- Lowering a command fails only if a number does not fit, if what it refers to is there. -/
theorem isEncoding_of_lower {c : Command} (there : ∀ o, c.reference? = some o →
      o.IsThere (s.labels.map Prod.fst) s.constants.length)
    (failed : s.lower site span c = .error e) : e.IsEncoding := by
  -- after a number has been turned into a word nothing fails
  have word {α : Type} {value : Int} {f : Int32 → Except AssemblyError α}
      (failed : ((wordOf value).mapError (.encoding site span) >>= f) = .error e)
      (total : ∀ word, f word ≠ .error e) : e.IsEncoding := by
    rcases Except.bind_eq_error.1 failed with failed | ⟨word, -, failed⟩
    · exact isEncoding_of_word failed
    · exact absurd failed (total word)
  -- a label that is there has a distance, which may still be out of range
  have label {name : String} (mem : name ∈ s.labels.map Prod.fst)
      (failed : (do (wordOf (← s.labelOffset name site span)).mapError (.encoding site span))
        = Except.error e) : e.IsEncoding := by
    obtain ⟨offset, found⟩ : ∃ offset, s.labelOffset name site span = .ok offset :=
      exists_labelOffset mem
    rw [found] at failed
    exact isEncoding_of_word failed
  cases c with
  | compute | isZero | copy | jump | jumpIf | sys | exit => cases failed
  | computeWith | load | store | sysOf | exitWith => exact word failed nofun
  | storeInt value base offset =>
    rcases Except.bind_eq_error.1 failed with failed | ⟨first, -, failed⟩
    · exact isEncoding_of_word failed
    · exact word failed nofun
  | put dst source =>
    cases source with
    | int value => exact word failed nofun
    | label name =>
      rcases Except.bind_eq_error.1 failed with failed | ⟨offset, found, failed⟩
      · exact label (there _ rfl) (Except.bind_eq_error.2 (.inl failed))
      · exact word failed nofun
    | constant index =>
      obtain ⟨offset, found⟩ : ∃ offset, s.constantOffset index site span = .ok offset :=
        exists_constantOffset (there _ rfl)
      change (s.constantOffset index site span >>= _) = _ at failed
      rw [found] at failed
      exact word failed nofun
  | jumpTo target | jumpToIf target =>
    rcases Except.bind_eq_error.1 failed with failed | ⟨first, -, failed⟩
    · cases target with
      | label name => exact label (there _ rfl) failed
      | offset bytes => exact isEncoding_of_word failed
    · cases failed

theorem isEncoding_of_encodeFrom {is : List Instruction}
    (failed : encodeFrom span site is = .error e) : e.IsEncoding := by
  induction is generalizing site with
  | nil => cases failed
  | cons i is ih =>
    rcases Except.bind_eq_error.1 failed with failed | ⟨word, -, failed⟩
    · exact isEncoding_of_word failed
    rcases Except.bind_eq_error.1 failed with failed | ⟨words, -, failed⟩
    · exact ih failed
    · cases failed

theorem isEncoding_of_generateFrom {ps : List Placed}
    (there : ∀ p ∈ ps, ∀ o, p.command.reference? = some o →
      o.IsThere (s.labels.map Prod.fst) s.constants.length)
    (failed : generateFrom s site ps = .error e) : e.IsEncoding := by
  induction ps generalizing site with
  | nil => cases failed
  | cons p ps ih =>
    obtain ⟨first, others⟩ := List.forall_mem_cons.1 there
    rcases Except.bind_eq_error.1 failed with failed | ⟨instructions, -, failed⟩
    · exact isEncoding_of_lower first failed
    rcases Except.bind_eq_error.1 failed with failed | ⟨words, -, failed⟩
    · exact isEncoding_of_encodeFrom failed
    rcases Except.bind_eq_error.1 failed with failed | ⟨rest, -, failed⟩
    · exact ih others failed
    · cases failed

/-- **What is well formed** is assembled, or an instruction has no word. -/
theorem Listing.WellFormed.isEncoding {l : Listing} (wellFormed : l.WellFormed)
    (failed : l.assemble = .error e) : e.IsEncoding := by
  have distinct : (([] : List (String × Nat)).map Prod.fst ++ labelsOf l.lines).Nodup :=
    wellFormed.distinct
  obtain ⟨found, outlined, same, refer⟩ : ∃ found, outline l.lines = .ok found ∧ _ :=
    exists_outlineFrom wellFormed.commands distinct
  have there : ∀ p ∈ found.commands, ∀ o, p.command.reference? = some o →
      o.IsThere (found.labels.map Prod.fst) l.constants.length := by
    intro p mem o refers
    obtain ⟨line, mem', among⟩ := refer p mem
    rw [same]
    exact wellFormed.there line mem' o (among o refers)
  rcases Except.bind_eq_error.1 failed with failed | ⟨found', outlined', failed⟩
  · rw [outlined] at failed
    cases failed
  obtain rfl := Except.ok.inj (outlined.symm.trans outlined')
  rcases Except.bind_eq_error.1 failed with failed | ⟨code, -, failed⟩
  · exact isEncoding_of_generateFrom there failed
  · cases failed

end

end Polyglot.Assembly
