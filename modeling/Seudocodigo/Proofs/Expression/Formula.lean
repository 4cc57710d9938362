import Seudocodigo.Proofs.Expression.Postorder

/-! Expressions as trees at all depths: operators above their operands, indices and arguments as
trees of their own. What is parsed spells exactly one of them. -/
namespace Seudocodigo

mutual

inductive Formula where
  | literal (value : Value)
  | access (name : String) (indices : List Term)
  | call (name : String) (args : List Term) (location : Location)
  | unary (op : Operator) (leads : op.leadsOperand = true) (operand : Formula)
  | binary (op : Operator) (joins : op.leadsOperand = false) (left right : Formula)

structure Term where
  formula : Formula
  location : Location

end

mutual

def Formula.elements : Formula → List Element
  | .literal value => [.literal value]
  | .access name indices => [.access ⟨name, expressionsOfTerms indices⟩]
  | .call name args p => [.call ⟨name, expressionsOfTerms args, p⟩]
  | .unary op _ t => t.elements ++ [.operator op]
  | .binary op _ l r => l.elements ++ r.elements ++ [.operator op]

def Term.expression : Term → Expression
  | ⟨t, p⟩ => ⟨t.elements, p⟩

def expressionsOfTerms : List Term → List Expression
  | [] => []
  | t :: ts => t.expression :: expressionsOfTerms ts

end

theorem length_expressionsOfTerms (ts : List Term) :
    (expressionsOfTerms ts).length = ts.length := by
  induction ts with
  | nil => rw [expressionsOfTerms]; rfl
  | cons t ts ih => rw [expressionsOfTerms, List.length_cons, ih, List.length_cons]

namespace Formula

def top : Formula → Element
  | .literal value => .literal value
  | .access name indices => .access ⟨name, expressionsOfTerms indices⟩
  | .call name args p => .call ⟨name, expressionsOfTerms args, p⟩
  | .unary op _ _ | .binary op _ _ _ => .operator op

def operands : Formula → List Element
  | .literal _ | .access .. | .call .. => []
  | .unary _ _ t => t.elements
  | .binary _ _ l r => l.elements ++ r.elements

theorem elements_eq (t : Formula) : t.elements = t.operands ++ [t.top] := by
  cases t <;> rw [elements] <;> rfl

/-- Where two lists end with the elements of formulas, their last elements are the same, and so is
what lies before. -/
theorem ends_alike {t u : Formula} {xs ys : List Element}
    (h : xs ++ t.elements = ys ++ u.elements) :
    xs ++ t.operands = ys ++ u.operands ∧ t.top = u.top := by
  rw [elements_eq t, elements_eq u, ← List.append_assoc, ← List.append_assoc] at h
  obtain ⟨hbefore, hlast⟩ := List.append_inj' h rfl
  exact ⟨hbefore, List.singleton_inj.1 hlast⟩

/-- Only an access is a single element of its kind. -/
theorem eq_access_of_elements {t : Formula} {a : Access} (h : t.elements = [.access a]) :
    ∃ ts, t = .access a.name ts ∧ expressionsOfTerms ts = a.indices := by
  rw [elements_eq] at h
  have htop : t.top = .access a := (List.append_eq_singleton_iff.1 h).elim
    (fun h => List.singleton_inj.1 h.2) (fun h => absurd h.2 (by simp))
  cases t with
  | access name ts => cases htop; exact ⟨ts, rfl, rfl⟩
  | _ => cases htop

end Formula

mutual

/-- Elements can be cut in one way only into a beginning and the elements of a formula. -/
theorem Formula.elements_inj {xs ys : List Element} (t u : Formula)
    (h : xs ++ t.elements = ys ++ u.elements) : xs = ys ∧ t = u := by
  obtain ⟨hbefore, htop⟩ := Formula.ends_alike h
  cases t with
  | literal value =>
    cases u <;> cases htop
    exact ⟨by simpa using hbefore, rfl⟩
  | access name indices =>
    cases u with
    | access other others =>
      simp only [Formula.top, Element.access.injEq, Access.mk.injEq] at htop
      rw [htop.1, expressionsOfTerms_inj indices others htop.2]
      exact ⟨by simpa [Formula.operands] using hbefore, rfl⟩
    | _ => cases htop
  | call name args p =>
    cases u with
    | call other others q =>
      simp only [Formula.top, Element.call.injEq, Call.mk.injEq] at htop
      rw [htop.1, expressionsOfTerms_inj args others htop.2.1, htop.2.2]
      exact ⟨by simpa [Formula.operands] using hbefore, rfl⟩
    | _ => cases htop
  | unary op hop t =>
    cases u with
    | unary other hother u =>
      cases htop
      obtain ⟨hxs, rfl⟩ := Formula.elements_inj t u hbefore
      exact ⟨hxs, rfl⟩
    | binary other hother l r =>
      cases htop
      rw [hop] at hother
      cases hother
    | _ => cases htop
  | binary op hop l r =>
    cases u with
    | unary other hother u =>
      cases htop
      rw [hop] at hother
      cases hother
    | binary other hother l' r' =>
      cases htop
      simp only [Formula.operands, ← List.append_assoc] at hbefore
      obtain ⟨hleft, rfl⟩ := Formula.elements_inj r r' hbefore
      obtain ⟨hxs, rfl⟩ := Formula.elements_inj l l' hleft
      exact ⟨hxs, rfl⟩
    | _ => cases htop

theorem expressionsOfTerms_inj (ts us : List Term)
    (h : expressionsOfTerms ts = expressionsOfTerms us) : ts = us := by
  cases ts with
  | nil =>
    cases us with
    | nil => rfl
    | cons => rw [expressionsOfTerms, expressionsOfTerms] at h; cases h
  | cons t ts =>
    cases us with
    | nil => rw [expressionsOfTerms, expressionsOfTerms] at h; cases h
    | cons u us =>
      obtain ⟨t, p⟩ := t
      obtain ⟨u, q⟩ := u
      simp only [expressionsOfTerms, Term.expression, List.cons.injEq, Expression.mk.injEq] at h
      obtain ⟨⟨helements, rfl⟩, hrest⟩ := h
      rw [(@Formula.elements_inj [] [] t u helements).2,
        expressionsOfTerms_inj ts us hrest]

end

theorem Term.expression_injective : Function.Injective Term.expression := by
  intro t u h
  refine List.singleton_inj.1 (expressionsOfTerms_inj [t] [u] ?_)
  simp only [expressionsOfTerms, h]

/-- Expressions are spelled by terms if the elements of each are by a formula. -/
theorem exists_terms {es : List Expression} (h : ∀ e ∈ es, ∃ t : Formula, t.elements = e.elements) :
    ∃ ts, expressionsOfTerms ts = es := by
  induction es with
  | nil => exact ⟨[], by rw [expressionsOfTerms]⟩
  | cons e es ih =>
    obtain ⟨⟨t, ht⟩, hes⟩ := List.forall_mem_cons.1 h
    obtain ⟨ts, hts⟩ := ih hes
    obtain ⟨elements, p⟩ := e
    exact ⟨⟨t, p⟩ :: ts, by rw [expressionsOfTerms, hts, Term.expression, ht]⟩

theorem Postorder.exists_formula {es : List Element} (h : Postorder es) :
    ∃ t : Formula, t.elements = es := by
  induction h with
  | literal value => exact ⟨.literal value, by rw [Formula.elements]⟩
  | @access a _ ih =>
    obtain ⟨name, indices⟩ := a
    obtain ⟨ts, hts⟩ := exists_terms ih
    exact ⟨.access name ts, by rw [Formula.elements, hts]⟩
  | @call c _ ih =>
    obtain ⟨name, args, p⟩ := c
    obtain ⟨ts, hts⟩ := exists_terms ih
    exact ⟨.call name ts p, by rw [Formula.elements, hts]⟩
  | @unary op _ hop _ ih =>
    obtain ⟨t, rfl⟩ := ih
    exact ⟨.unary op hop t, by rw [Formula.elements]⟩
  | @binary op _ _ hop _ _ ihl ihr =>
    obtain ⟨l, rfl⟩ := ihl
    obtain ⟨r, rfl⟩ := ihr
    exact ⟨.binary op hop l r, by rw [Formula.elements]⟩

/-- What is parsed is spelled by exactly one term. -/
theorem Expression.existsUnique_term {c d : Cursor} {e : Expression}
    (h : Expression.parse.outcome c = (.ok e, d)) :
    ∃ t : Term, ∀ u : Term, u.expression = e ↔ u = t := by
  obtain ⟨t, ht⟩ := (Expression.postorder_of_parse h).exists_formula
  have hspells : Term.expression ⟨t, e.location⟩ = e := by
    obtain ⟨elements, p⟩ := e
    rw [Term.expression, ht]
  refine ⟨⟨t, e.location⟩, fun u => ⟨fun hu => ?_, fun hu => by rw [hu, hspells]⟩⟩
  exact Term.expression_injective (hu.trans hspells.symm)

end Seudocodigo
