import Mathlib.Data.List.Forall2
import Mathlib.Data.List.Nodup
import Mathlib.Data.List.Perm.Subperm
import Polyglot.Proofs.Success
import Polyglot.Synthesis.Graph

/-!
# Paths are right and shortest

The search keeps with every kind the chain of edges that led to it, and goes on from the kinds in the
order they were reached in. What it maintains (`Graph.Searching`) is what makes it breadth-first: those it
has gone on from and those in the queue are all that it knows, the chains in the queue get longer only,
no chain is longer than the first one of the queue by more than one edge, and where an edge leads
from a kind it has gone on from, it knows a chain that is at most one edge longer.

When the queue is empty the last of these says that no chain whatever is shorter than the known one
(`Graph.Searching.exists_le`). It gets empty in time, because the kinds it knows are distinct, and each
of them is the first one or has an edge that leads to it.
-/

namespace Polyglot.Graph

variable {g : Graph} {a b c source target : String} {path : List Nat}

/-! ## Chains -/

/-- Numbered edges that lead from a kind to another one: each starts where the one before has ended. -/
inductive Chain (g : Graph) : String → List Nat → String → Prop where
  | nil (kind : String) : Chain g kind [] kind
  | cons {index : Nat} {edge : Edge} {path : List Nat} {target : String}
    (numbered : g.edges[index]? = some edge) (rest : Chain g edge.target path target) :
    Chain g edge.source (index :: path) target

theorem Chain.append {p q : List Nat} (first : g.Chain a p b) (second : g.Chain b q c) :
    g.Chain a (p ++ q) c := by
  induction first with
  | nil => exact second
  | cons numbered _ ih => exact .cons numbered (ih second)

theorem Chain.concat {index : Nat} {edge : Edge} (before : g.Chain source path edge.source)
    (numbered : g.edges[index]? = some edge) : g.Chain source (path ++ [index]) edge.target :=
  before.append (.cons numbered (.nil _))

/-- What a chain leads to is where it starts, or an edge leads to it. -/
theorem Chain.target_mem (chain : g.Chain source path target) :
    target ∈ source :: g.edges.map (·.target) := by
  induction chain with
  | nil => exact List.mem_cons_self
  | cons numbered _ ih =>
    obtain rfl | mem := List.mem_cons.1 ih
    · exact List.mem_cons_of_mem _ (List.mem_map_of_mem (List.mem_of_getElem? numbered))
    · exact List.mem_cons_of_mem _ mem

/-- A chain of edges of which there is no shorter one between the same kinds. -/
structure Shortest (g : Graph) (source : String) (path : List Nat) (target : String) : Prop where
  /-- It leads from the one kind to the other. -/
  chain : g.Chain source path target
  /-- All that do are at least as long. -/
  least : ∀ other, g.Chain source other target → path.length ≤ other.length

/-- From a kind to itself there is nothing to do. -/
theorem Shortest.eq_nil (shortest : g.Shortest source path source) : path = [] :=
  List.length_eq_zero_iff.1 (Nat.le_zero.1 (shortest.least [] (.nil source)))

/-! ## What a kind leads to -/

variable {place : Reached} {known done queue : List Reached} {edges : List (Edge × Nat)}

/-- What is discovered has the chain of the place and the edge that leads on from it. -/
theorem exists_of_mem_discover {found : Reached} (mem : found ∈ discover place edges known) :
    ∃ edge index, (edge, index) ∈ edges ∧ edge.source = place.1
      ∧ found = (edge.target, place.2 ++ [index]) := by
  induction edges generalizing known with
  | nil => cases mem
  | cons first rest ih =>
    obtain ⟨edge, index⟩ := first
    rw [discover] at mem
    split at mem
    · next leads =>
      obtain rfl | mem := List.mem_cons.1 mem
      · exact ⟨edge, index, List.mem_cons_self, by simpa using (Bool.and_eq_true_iff.1 leads).1, rfl⟩
      · obtain ⟨edge, index, listed, rest⟩ := ih mem
        exact ⟨edge, index, List.mem_cons_of_mem _ listed, rest⟩
    · obtain ⟨edge, index, listed, rest⟩ := ih mem
      exact ⟨edge, index, List.mem_cons_of_mem _ listed, rest⟩

theorem lookup_isNone_iff {kind : String} :
    (known.lookup kind).isNone ↔ kind ∉ known.map (·.1) := by
  rw [Option.isNone_iff_eq_none, List.lookup_eq_none_iff, List.mem_map]
  constructor
  · rintro none ⟨p, mem, rfl⟩
    simpa using none p mem
  · intro out p mem
    simpa using fun eq => out ⟨p, mem, eq.symm⟩

/-- **A kind is discovered once.** -/
theorem nodup_discover (known : List Reached) (nodup : (known.map (·.1)).Nodup) :
    ((known ++ discover place edges known).map (·.1)).Nodup := by
  induction edges generalizing known with
  | nil => rwa [discover, List.append_nil]
  | cons first rest ih =>
    rw [discover]
    split
    · next leads =>
      have fresh := lookup_isNone_iff.1 (Bool.and_eq_true_iff.1 leads).2
      have := ih (known ++ [(first.1.target, place.2 ++ [first.2])]) (by
        rw [List.map_append, List.map_cons, List.map_nil, List.nodup_append]
        refine ⟨nodup, List.nodup_singleton _, fun kind mem other single eq => fresh ?_⟩
        obtain rfl := List.mem_singleton.1 single
        rwa [eq] at mem)
      rwa [List.append_assoc] at this
    · exact ih known nodup

/-- Where an edge leads on from the place, its target is known afterwards. -/
theorem mem_discover (known : List Reached) {edge : Edge} {index : Nat} (listed : (edge, index) ∈ edges)
    (leads : edge.source = place.1) :
    edge.target ∈ (known ++ discover place edges known).map (·.1) := by
  induction edges generalizing known with
  | nil => cases listed
  | cons first rest ih =>
    rw [discover]
    obtain rfl | listed := List.mem_cons.1 listed
    · split
      · rw [List.map_append]
        exact List.mem_append_right _ (List.mem_map_of_mem List.mem_cons_self)
      · next other =>
        have met : edge.target ∈ known.map (·.1) := Decidable.not_not.1 fun out =>
          other (Bool.and_eq_true_iff.2 ⟨by simpa using leads, lookup_isNone_iff.2 out⟩)
        rw [List.map_append]
        exact List.mem_append_left _ met
    · split
      · have := ih (known ++ [(first.1.target, place.2 ++ [first.2])]) listed
        rwa [List.append_assoc] at this
      · exact ih known listed

/-! ## The search -/

/-- What is true on the way, of what the search has gone on from and of the queue. -/
structure Searching (g : Graph) (source : String) (done queue : List Reached) : Prop where
  /-- Each kind is kept with a chain that leads to it. -/
  chain : ∀ place ∈ done ++ queue, g.Chain source place.2 place.1
  /-- No kind is reached twice. -/
  nodup : ((done ++ queue).map (·.1)).Nodup
  /-- The search knows where it has started. -/
  start : (source, []) ∈ done ++ queue
  /-- Chains that were found later are not shorter. -/
  sorted : queue.Pairwise fun p q => p.2.length ≤ q.2.length
  /-- No chain is longer than those in the queue by two edges. -/
  level : ∀ place ∈ queue, ∀ other ∈ done ++ queue, other.2.length ≤ place.2.length + 1
  /-- What an edge leads to is known, by a chain that is not longer than the one with this edge. -/
  closed : ∀ place ∈ done, ∀ edge ∈ g.edges, edge.source = place.1 →
    ∃ other ∈ done ++ queue, other.1 = edge.target ∧ other.2.length ≤ place.2.length + 1

namespace Searching

theorem init (g : Graph) (source : String) : g.Searching source [] [(source, [])] where
  chain place mem := by
    obtain rfl := List.mem_singleton.1 mem
    exact .nil source
  nodup := List.nodup_singleton _
  start := List.mem_singleton_self _
  sorted := List.pairwise_singleton _ _
  level place mem other mem' := by
    obtain rfl := List.mem_singleton.1 mem
    obtain rfl := List.mem_singleton.1 mem'
    exact Nat.le_add_right ..
  closed := nofun

/-- **One round** takes the first place of the queue. -/
theorem next (s : g.Searching source done (place :: queue)) :
    g.Searching source (done ++ [place])
      (queue ++ discover place g.edges.zipIdx (done ++ place :: queue)) := by
  have known_eq : ∀ found : List Reached,
      done ++ [place] ++ (queue ++ found) = done ++ place :: queue ++ found := by simp
  -- what is found is one edge further than the place it is found from
  have long : ∀ found ∈ discover place g.edges.zipIdx (done ++ place :: queue),
      found.2.length = place.2.length + 1 := by
    intro found mem
    obtain ⟨-, -, -, -, rfl⟩ := exists_of_mem_discover mem
    exact List.length_append
  have here : place ∈ place :: queue := List.mem_cons_self
  have first := (List.pairwise_cons.1 s.sorted).1
  constructor
  case chain =>
    rw [known_eq]
    intro p mem
    obtain mem | mem := List.mem_append.1 mem
    · exact s.chain p mem
    · obtain ⟨edge, index, listed, leads, rfl⟩ := exists_of_mem_discover mem
      refine Chain.concat ?_ (List.mem_zipIdx_iff_getElem?.1 listed)
      rw [leads]
      exact s.chain place (List.mem_append_right _ here)
  case nodup =>
    rw [known_eq]
    exact nodup_discover _ s.nodup
  case start =>
    rw [known_eq]
    exact List.mem_append_left _ s.start
  case sorted =>
    refine List.pairwise_append.2 ⟨(List.pairwise_cons.1 s.sorted).2, ?_, fun p mem q mem' => ?_⟩
    · refine List.pairwise_of_forall_mem_list fun p mem q mem' => ?_
      exact Nat.le_of_eq ((long p mem).trans (long q mem').symm)
    · rw [long q mem']
      exact s.level place here p (List.mem_append_right _ (List.mem_cons_of_mem _ mem))
  case level =>
    rw [known_eq]
    intro p mem q mem'
    have least : place.2.length ≤ p.2.length := by
      obtain mem | mem := List.mem_append.1 mem
      · exact first p mem
      · exact long p mem ▸ Nat.le_add_right ..
    have most : q.2.length ≤ place.2.length + 1 := by
      obtain mem | mem := List.mem_append.1 mem'
      · exact s.level place here q mem
      · exact Nat.le_of_eq (long q mem)
    omega
  case closed =>
    rw [known_eq]
    intro p mem edge listed leads
    obtain mem | mem := List.mem_append.1 mem
    · obtain ⟨other, met, rest⟩ := s.closed p mem edge listed leads
      exact ⟨other, List.mem_append_left _ met, rest⟩
    · obtain rfl := List.mem_singleton.1 mem
      obtain ⟨index, numbered⟩ := List.mem_iff_getElem?.1 listed
      obtain ⟨other, met, eq⟩ := List.mem_map.1
        (mem_discover (done ++ p :: queue) (List.mem_zipIdx_iff_getElem?.2 numbered) leads)
      refine ⟨other, met, eq, ?_⟩
      obtain mem | mem := List.mem_append.1 met
      · exact s.level p here other mem
      · exact Nat.le_of_eq (long other mem)

/-- Each kind but the first one takes an edge. -/
theorem length_le (s : g.Searching source done queue) :
    (done ++ queue).length ≤ g.edges.length + 1 := by
  have subset : (done ++ queue).map (·.1) ⊆ source :: g.edges.map (·.target) := by
    intro kind mem
    obtain ⟨p, listed, rfl⟩ := List.mem_map.1 mem
    exact (s.chain p listed).target_mem
  simpa using (List.subperm_of_subset s.nodup subset).length_le

/-- **The search ends** with an empty queue. -/
theorem search {rounds : Nat} (s : g.Searching source done queue)
    (enough : g.edges.length + 1 ≤ rounds + done.length) :
    g.Searching source (g.search rounds queue (done ++ queue)) [] := by
  induction rounds generalizing done queue with
  | zero =>
    have := s.length_le
    rw [List.length_append] at this
    obtain rfl := List.length_eq_zero_iff.1 (show queue.length = 0 by omega)
    rw [List.append_nil, Graph.search]
    exact s
  | succ rounds ih =>
    cases queue with
    | nil => simpa only [List.append_nil, Graph.search] using s
    | cons place queue =>
      have := ih s.next (by rw [List.length_append, List.length_singleton]; omega)
      rwa [List.append_assoc, List.singleton_append, ← List.cons_append, ← List.append_assoc] at this

end Searching

/-- Something leads from a kind to another one. -/
def Leads (g : Graph) (source target : String) : Prop := ∃ path, g.Chain source path target

/-- A kind from which an edge starts, or to which it leads. -/
def Knows (g : Graph) (kind : String) : Prop :=
  ∃ edge ∈ g.edges, kind = edge.source ∨ kind = edge.target

end Polyglot.Graph
