import Polyglot.Proofs.Parsing.Parts

/-!
# The tokens of sentences

Two terminals are reserved: they stand for no text, and a tree may have tokens of them that no
source has. A grammar that does not ask for them has trees with exactly the tokens that were
parsed (`Grammar.tokens_of_parseTokens`).
-/

namespace Polyglot

namespace Tree

mutual

/-- The tokens of a tree are those of its leaves. -/
theorem exists_leaf_of_mem_tokens (t : Tree) {token : Token} (mem : token ∈ t.tokens) :
    ∃ u ∈ t.parts, u.token? = some token := by
  cases t with
  | leaf name label terminal token' =>
    rw [tokens_leaf, List.mem_singleton] at mem
    exact ⟨_, self_mem_parts _, congrArg some mem.symm⟩
  | node name label choice children =>
    rw [tokens_node] at mem
    obtain ⟨u, inside, is⟩ := exists_leaf_of_mem_tokensOfList children mem
    rw [parts]
    exact ⟨u, List.mem_cons_of_mem _ inside, is⟩

theorem exists_leaf_of_mem_tokensOfList (ts : List Tree) {token : Token}
    (mem : token ∈ ts.flatMap tokens) : ∃ u ∈ partsOfList ts, u.token? = some token := by
  cases ts with
  | nil => cases mem
  | cons t ts =>
    rw [List.flatMap_cons, List.mem_append] at mem
    rw [partsOfList]
    rcases mem with mem | mem
    · obtain ⟨u, inside, is⟩ := exists_leaf_of_mem_tokens t mem
      exact ⟨u, List.mem_append_left _ inside, is⟩
    · obtain ⟨u, inside, is⟩ := exists_leaf_of_mem_tokensOfList ts mem
      exact ⟨u, List.mem_append_right _ inside, is⟩

end

end Tree

namespace Grammar

variable {g : Grammar} {ts : List Token} {t : Tree}

/-- Whether a body asks for no reserved terminal. -/
def readsBody : RuleBody → Bool
  | .aliasOf type => !isReserved type
  | .choice alternatives => alternatives.all (·.all fun term =>
    match term.symbol with
    | .terminal type => !isReserved type
    | .rule _ => true)

/-- Whether no rule asks for a reserved terminal. -/
def readsAll (g : Grammar) : Bool := g.rules.all fun r => readsBody r.body

theorem unreserved_of_leaf (reads : g.readsAll) {name : String} {label terminal : Option String}
    {token : Token} (has : g.Has (.leaf name label terminal token)) : isReserved token.type = false := by
  have each {r : Rule} (mem : r ∈ g.rules) : readsBody r.body = true := by
    rw [readsAll, Array.all_eq_true'] at reads
    exact reads r mem
  rcases has.of_leaf with ⟨type, term, ⟨r, mem, terms, among, inside⟩, symbol⟩ | ⟨r, mem, -, body⟩
  · have asks := each mem
    rw [Rule.alternatives] at among
    split at among
    · cases among
    · rename_i alternatives body
      rw [body] at asks
      have here := List.all_eq_true.1 (List.all_eq_true.1 asks terms among) term inside
      rw [symbol] at here
      rw [type]
      simpa using here
  · have asks := each mem
    rw [body] at asks
    simpa [readsBody] using asks

/-- **The tokens of a tree** are those that were parsed, if no rule asks for a reserved
terminal. -/
theorem tokens_of_parseTokens (reads : g.readsAll) (parsed : g.parseTokens ts = .ok t) :
    t.tokens = ts := by
  obtain ⟨-, -, same, -⟩ := parseTokens_sound parsed
  rw [← same, readTokens, eq_comm, List.filter_eq_self]
  intro token mem
  obtain ⟨u, inside, is⟩ := t.exists_leaf_of_mem_tokens mem
  cases u with
  | node => cases is
  | leaf name label terminal token' =>
    obtain rfl := Option.some.inj is
    rw [unreserved_of_leaf reads (has_of_parseTokens parsed _ inside)]
    rfl

end Grammar

end Polyglot
