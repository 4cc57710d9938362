import Seudocodigo.Proofs.Expression.Postorder

/-! The expressions within an expression: the indices and arguments in it, at any depth. -/
namespace Seudocodigo

def Element.expressions : Element → List Expression
  | .literal _ | .operator _ => []
  | .access a => a.indices
  | .call c => c.args

inductive Expression.Part (e : Expression) : Expression → Prop where
  | whole : Part e e
  | inner {x y : Expression} {el : Element} :
    Part e x → el ∈ x.elements → y ∈ el.expressions → Part e y

theorem Postorder.of_mem {es : List Element} (h : Postorder es) {el : Element} (hel : el ∈ es) :
    ∀ e ∈ el.expressions, Postorder e.elements := by
  induction h with
  | literal => cases List.mem_singleton.1 hel; nofun
  | access hindices => cases List.mem_singleton.1 hel; exact hindices
  | call hargs => cases List.mem_singleton.1 hel; exact hargs
  | unary _ _ ih =>
    cases List.mem_append.1 hel with
    | inl hes => exact ih hes
    | inr hop => cases List.mem_singleton.1 hop; nofun
  | binary _ _ _ ihl ihr =>
    cases List.mem_append.1 hel with
    | inl hes => exact (List.mem_append.1 hes).elim ihl ihr
    | inr hop => cases List.mem_singleton.1 hop; nofun

/-- The parts are in order if the whole is. -/
theorem Expression.Part.postorder {e x : Expression} (hx : e.Part x) (h : Postorder e.elements) :
    Postorder x.elements := by
  induction hx with
  | whole => exact h
  | inner _ hel hy ih => exact ih.of_mem hel _ hy

end Seudocodigo
