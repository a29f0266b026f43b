import Polyglot.Proofs.Tree.Layout
import Polyglot.Proofs.Tree.Shaking

/-!
# Where spans start

The span of a tree is put together from those of its tokens, so it starts where one of them does, or at the
start of the source if there are none (`Tree.startsIn_span`). The same goes for the spans of all trees that are made
of tokens of a tree, such as the trees in it and what shaking leaves of it. So where a span starts
(`Span.StartsIn`) says enough about it to find it in a source.
-/

namespace Polyglot

open Polyglot.Source

/-- Whether a span starts where a token of a tree does, or at the start of the source. -/
def Source.Span.StartsIn (span : Span) (t : Tree) : Prop :=
  span.first = .start ∨ ∃ token ∈ t.solidTokens, span.first = token.span.first

namespace Tree

variable {t u : Tree} {span : Span}

/-- **A tree starts** where one of its tokens does. -/
theorem startsIn_span (t : Tree) : t.span.StartsIn t := by
  unfold Span.StartsIn Tree.span span?
  cases t.solidTokens with
  | nil => exact .inl rfl
  | cons token tokens =>
    refine .inr (List.foldlRecOn (motive := fun s : Span => ∃ other ∈ token :: tokens, s.first = other.span.first)
      tokens _ ⟨token, List.mem_cons_self, rfl⟩ fun s starts other mem => ?_)
    rw [Span.merge, Position.earlier]
    split
    · exact ⟨other, List.mem_cons_of_mem _ mem, rfl⟩
    · exact starts

end Tree

namespace Source.Span.StartsIn

open Polyglot.Tree

variable {t u : Tree} {span : Span}

theorem mono (h : span.StartsIn u) (sub : u.solidTokens ⊆ t.solidTokens) : span.StartsIn t := by
  obtain start | ⟨token, mem, same⟩ := h
  · exact .inl start
  · exact .inr ⟨token, sub mem, same⟩

/-- A part of a tree has tokens of the tree. -/
theorem above (h : span.StartsIn u) (mem : u ∈ t.children) : span.StartsIn t := by
  refine h.mono fun token among => ?_
  cases t with
  | leaf => cases mem
  | node name label choice children =>
    rw [solidTokens_node]
    exact List.mem_flatMap.2 ⟨u, mem, among⟩

/-- A tree with some of the parts of another one has tokens of that. -/
theorem of_withChildren {ts : List Tree} (h : span.StartsIn (t.withChildren ts)) (sub : ts ⊆ t.children) :
    span.StartsIn t := by
  cases t with
  | leaf => exact h
  | node name label choice children =>
    refine h.mono fun token among => ?_
    rw [withChildren, solidTokens_node, List.mem_flatMap] at among
    obtain ⟨u, mem, among⟩ := among
    rw [solidTokens_node]
    exact List.mem_flatMap.2 ⟨u, sub mem, among⟩

/-- Shaking leaves tokens of the tree. -/
theorem of_shake {s : Shake} (h : span.StartsIn (s.shake t)) : span.StartsIn t :=
  h.mono ((Shake.tokens_shake_sublist s t).filter _).subset

end Source.Span.StartsIn

end Polyglot
