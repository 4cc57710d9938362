import Seudocodigo.Proofs.Expression.Checked

/-! Elements in order find the types of all their operands on the stack, in any context, and leave
one type there if they leave any. What lies below them makes no difference. -/
namespace Seudocodigo

section Framed

variable {Γ : Context} {q : Location}

theorem typeElements_literal (value : Value) (ts : List Ty) :
    typeElements Γ q [.literal value] ts = .ok (value.ty :: ts) := by
  rw [typeElements, Element.typeOnto]
  rfl

theorem typeElements_access (a : Access) (ts : List Ty) :
    typeElements Γ q [.access a] ts = a.type Γ q >>= fun t => .ok (t :: ts) := by
  rw [typeElements, Element.typeOnto]
  cases a.type Γ q <;> rfl

theorem typeElements_call (c : Call) (ts : List Ty) :
    typeElements Γ q [.call c] ts = c.check Γ >>= fun _ => .ok (Γ.callType c.name :: ts) := by
  obtain ⟨name, args, p⟩ := c
  rw [typeElements, Element.typeOnto]
  cases Call.check Γ ⟨name, args, p⟩ <;> rfl

theorem typeElements_operator (op : Operator) (ts : List Ty) :
    typeElements Γ q [.operator op] ts = op.typeOnto q ts := by
  rw [typeElements, Element.typeOnto]
  cases op.typeOnto q ts <;> rfl

namespace Operator

def unaryResult (op : Operator) (p : Location) (t : Ty) : Except TypeError Ty :=
  match op.unaryType? t with
  | some r => .ok r
  | none => .error ⟨.operand op t, p⟩

def binaryResult (op : Operator) (p : Location) (l r : Ty) : Except TypeError Ty :=
  match op.binaryType? l r with
  | some t => .ok t
  | none => .error ⟨.operands op l r, p⟩

theorem typeOnto_unary {op : Operator} (hop : op.leadsOperand = true) (t : Ty) (ts : List Ty) :
    op.typeOnto q (t :: ts) = op.unaryResult q t >>= fun r => .ok (r :: ts) := by
  rw [typeOnto, if_pos hop, List.headD_cons, List.tail_cons, unaryResult]
  cases op.unaryType? t <;> rfl

theorem typeOnto_binary {op : Operator} (hop : op.leadsOperand = false) (l r : Ty) (ts : List Ty) :
    op.typeOnto q (r :: l :: ts) = op.binaryResult q l r >>= fun t => .ok (t :: ts) := by
  rw [typeOnto, if_neg (by simp [hop])]
  simp only [List.headD_cons, List.tail_cons, binaryResult]
  cases op.binaryType? l r <;> rfl

theorem arity_pos (op : Operator) : 0 < op.arity := by
  rw [arity]
  split <;> decide

end Operator

/-- Elements in order have one result, whatever lies on the stack below it. -/
theorem Postorder.framed {es : List Element} (h : Postorder es) (Γ : Context) (q : Location) :
    ∃ result : Except TypeError Ty, ∀ ts,
      typeElements Γ q es ts = result >>= fun t => .ok (t :: ts) := by
  induction h with
  | literal value => exact ⟨.ok value.ty, typeElements_literal value⟩
  | @access a => exact ⟨a.type Γ q, typeElements_access a⟩
  | @call c =>
    refine ⟨c.check Γ >>= fun _ => .ok (Γ.callType c.name), fun ts => ?_⟩
    rw [typeElements_call, bind_assoc]
    rfl
  | @unary op es hop _ ih =>
    obtain ⟨operand, hes⟩ := ih
    refine ⟨operand >>= op.unaryResult q, fun ts => ?_⟩
    rw [typeElements_append, hes, bind_assoc, bind_assoc]
    refine congrArg (operand >>= ·) (funext fun t => ?_)
    exact (typeElements_operator op (t :: ts)).trans (Operator.typeOnto_unary hop t ts)
  | @binary op ls rs hop _ _ ihl ihr =>
    obtain ⟨left, hls⟩ := ihl
    obtain ⟨right, hrs⟩ := ihr
    refine ⟨left >>= fun l => right >>= op.binaryResult q l, fun ts => ?_⟩
    simp only [typeElements_append, hls, bind_assoc]
    refine congrArg (left >>= ·) (funext fun l => ?_)
    show typeElements Γ q rs (l :: ts) >>= _ = _
    rw [hrs, bind_assoc]
    refine congrArg (right >>= ·) (funext fun r => ?_)
    exact (typeElements_operator op (r :: l :: ts)).trans (Operator.typeOnto_binary hop l r ts)

/-- The type of elements in order is what they leave on any stack. -/
theorem Postorder.typeElements_eq {es : List Element} (h : Postorder es) (ts : List Ty) :
    typeElements Γ q es ts = Expression.type Γ ⟨es, q⟩ >>= fun t => .ok (t :: ts) := by
  obtain ⟨result, hresult⟩ := h.framed Γ q
  rw [Expression.type, hresult, hresult]
  cases result <;> rfl

theorem Expression.typeElements_eq {e : Expression} (h : Postorder e.elements) (ts : List Ty) :
    typeElements Γ e.location e.elements ts = e.type Γ >>= fun t => .ok (t :: ts) := by
  obtain ⟨es, q⟩ := e
  exact h.typeElements_eq ts

/-- What the elements leave is one type on top of the stack. -/
theorem Postorder.exists_of_typeElements {es : List Element} (h : Postorder es) {ts us : List Ty}
    (ht : typeElements Γ q es ts = .ok us) : ∃ t, us = t :: ts := by
  rw [h.typeElements_eq] at ht
  obtain ⟨t, -, ht⟩ := exists_of_bind_eq_ok ht
  cases ht
  exact ⟨t, rfl⟩

/-- The last of a list, or one before it. -/
theorem concat_eq_append_cons {α : Type} {as before after : List α} {a b : α}
    (h : as ++ [b] = before ++ a :: after) :
    as = before ∧ b = a ∨ ∃ rest, as = before ++ a :: rest := by
  obtain rfl | ⟨rest, c, rfl⟩ := List.eq_nil_or_concat after
  · obtain ⟨has, hb⟩ := List.append_inj' h rfl
    exact .inl ⟨has, List.head_eq_of_cons_eq hb⟩
  · rw [List.concat_eq_append, ← List.cons_append, ← List.append_assoc] at h
    exact .inr ⟨rest, (List.append_inj' h rfl).1⟩

/-- An operator among elements in order finds all of its operands above what lay there before. -/
theorem Postorder.arity_le {es before after : List Element} {op : Operator} (h : Postorder es)
    (hes : es = before ++ .operator op :: after) {ts stack : List Ty}
    (hb : typeElements Γ q before ts = .ok stack) : ts.length + op.arity ≤ stack.length := by
  induction h generalizing before after ts with
  | literal | access | call =>
    have hop : Element.operator op ∈ before ++ .operator op :: after := by simp
    rw [← hes, List.mem_singleton] at hop
    cases hop
  | @unary op' es hop hpost ih =>
    obtain ⟨rfl, he⟩ | ⟨rest, hes⟩ := concat_eq_append_cons hes
    · cases he
      obtain ⟨t, rfl⟩ := hpost.exists_of_typeElements hb
      rw [Operator.arity, if_pos hop]
      exact Nat.le_refl _
    · exact ih hes hb
  | @binary op' ls rs hop hleft hright ihl ihr =>
    obtain ⟨rfl, he⟩ | ⟨rest, hes⟩ := concat_eq_append_cons hes
    · cases he
      rw [typeElements_append] at hb
      obtain ⟨us, hls, hrs⟩ := exists_of_bind_eq_ok hb
      obtain ⟨l, rfl⟩ := hleft.exists_of_typeElements hls
      obtain ⟨r, rfl⟩ := hright.exists_of_typeElements hrs
      rw [Operator.arity, if_neg (by simp [hop])]
      exact Nat.le_refl _
    · obtain ⟨inner, rfl, hrs⟩ | ⟨inner, rfl, hrest⟩ := List.append_eq_append_iff.1 hes
      · rw [typeElements_append] at hb
        obtain ⟨us, hls, hinner⟩ := exists_of_bind_eq_ok hb
        obtain ⟨l, rfl⟩ := hleft.exists_of_typeElements hls
        have hle := ihr hrs hinner
        rw [List.length_cons] at hle
        omega
      · cases inner with
        | nil =>
          -- No element stands before the operator in the right operand, so it has no operands.
          have hnone : typeElements Γ q [] stack = .ok stack := by rw [typeElements]; rfl
          have hrs : rs = [] ++ .operator op :: rest := hrest.symm
          have hle := ihr hrs hnone
          have hpos := op.arity_pos
          omega
        | cons first inner =>
          rw [List.cons_append, List.cons.injEq] at hrest
          exact ihl (by rw [hrest.1]) hb

theorem Expression.type_of_typeElements {e : Expression} {t : Ty}
    (h : typeElements Γ e.location e.elements [] = .ok [t]) : e.type Γ = .ok t := by
  obtain ⟨es, q⟩ := e
  rw [Expression.type, h]
  rfl

end Framed

/-- While the types of its elements are found one after the other, no operator lacks an operand, and
at the end there is just one type. -/
structure Expression.Settles (Γ : Context) (e : Expression) : Prop where
  operands : ∀ {before after : List Element} {op : Operator} {stack : List Ty},
    e.elements = before ++ .operator op :: after →
      typeElements Γ e.location before [] = .ok stack → op.arity ≤ stack.length
  single : ∀ {stack : List Ty}, typeElements Γ e.location e.elements [] = .ok stack →
    ∃ t, stack = [t] ∧ e.type Γ = .ok t

theorem Expression.settles_of_postorder {e : Expression} (h : Postorder e.elements) (Γ : Context) :
    e.Settles Γ where
  operands hes hb := by
    have hle := h.arity_le hes hb
    rwa [List.length_nil, Nat.zero_add] at hle
  single hstack := by
    obtain ⟨t, rfl⟩ := h.exists_of_typeElements hstack
    exact ⟨t, rfl, Expression.type_of_typeElements hstack⟩

/-- Where an access has a type, it has that type at any place. -/
theorem Access.type_location {Γ : Context} {a : Access} {p q : Location} {t : Ty}
    (h : a.type Γ p = .ok t) : a.type Γ q = .ok t := by
  obtain ⟨name, indices⟩ := a
  rw [Access.type] at h ⊢
  split at h
  · cases h
  · split at h
    · cases h
    · next hle =>
      rw [if_neg hle]
      exact h

namespace CountingLoop

variable {Γ : Context} {l : CountingLoop} {q : Location}

/-- The condition of a counting loop compares the counter with its bound, which are integers. -/
theorem type_condition (hbound : Postorder l.bound.elements)
    (ht : l.start.target.type Γ q = .ok .integer) (hb : l.bound.type Γ = .ok .integer) :
    l.condition.type Γ = .ok .logical := by
  have helements : l.condition.elements =
      [.access l.start.target] ++ l.bound.elements ++ [.operator .lessEqual] := rfl
  have hstack : typeElements Γ l.bound.location l.condition.elements [] = .ok [.logical] := by
    rw [helements, typeElements_append, typeElements_append, typeElements_access,
      Access.type_location ht]
    show (typeElements Γ l.bound.location l.bound.elements [.integer] >>= _) = _
    rw [Expression.typeElements_eq hbound, hb]
    show typeElements Γ l.bound.location [.operator .lessEqual] [.integer, .integer] = _
    rw [typeElements_operator]
    rfl
  exact Expression.type_of_typeElements hstack

end CountingLoop

end Seudocodigo
