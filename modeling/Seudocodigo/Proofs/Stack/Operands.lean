import Seudocodigo.Compile
import Seudocodigo.Proofs.Expression.Postorder
import Seudocodigo.Proofs.Grammar.Program

/-! The expressions of programs, and the calls that stand in them as operands. -/
namespace Seudocodigo

mutual

def Expression.operandCalls : Expression → List String
  | ⟨es, _⟩ => callsAmong es

def callsAmong : List Element → List String
  | [] => []
  | e :: es => e.operandCalls ++ callsAmong es

def Element.operandCalls : Element → List String
  | .literal _ | .operator _ => []
  | .access ⟨_, indices⟩ => callsWithin indices
  | .call ⟨name, args, _⟩ => callsWithin args ++ [name]

def callsWithin : List Expression → List String
  | [] => []
  | e :: es => e.operandCalls ++ callsWithin es

end

def Assignment.expressions (a : Assignment) : List Expression := a.value :: a.target.indices

mutual

/-- The expressions that a statement consists of, but not those within them. -/
def Statement.expressions : Statement → List Expression
  | .declaration .. => []
  | .assignment a => a.expressions
  | .conditional condition thenBranch elseBranch _ =>
    condition :: expressionsOf thenBranch ++ expressionsOf elseBranch
  | .whileLoop condition body _ => condition :: expressionsOf body
  | .untilLoop body condition _ => condition :: expressionsOf body
  | .counting ⟨start, bound, body, _⟩ => bound :: start.expressions ++ expressionsOf body
  | .call c => c.args
  | .result value _ => [value]

def expressionsOf : List Statement → List Expression
  | [] => []
  | s :: ss => s.expressions ++ expressionsOf ss

end

def Module.operandCalls (m : Module) : List String :=
  (expressionsOf m.body).flatMap Expression.operandCalls

theorem callsAmong_append (es fs : List Element) :
    callsAmong (es ++ fs) = callsAmong es ++ callsAmong fs := by
  induction es with
  | nil => rfl
  | cons e es ih => rw [List.cons_append, callsAmong, callsAmong, ih, List.append_assoc]

theorem callsAmong_access (a : Access) : callsAmong [.access a] = callsWithin a.indices := by
  obtain ⟨name, indices⟩ := a
  rw [callsAmong, callsAmong, Element.operandCalls, List.append_nil]

theorem callsAmong_call (c : Call) : callsAmong [.call c] = callsWithin c.args ++ [c.name] := by
  obtain ⟨name, args, p⟩ := c
  rw [callsAmong, callsAmong, Element.operandCalls, List.append_nil]

theorem callsAmong_operator (op : Operator) : callsAmong [.operator op] = [] := by
  rw [callsAmong, callsAmong, Element.operandCalls]
  rfl

theorem callsWithin_eq (es : List Expression) :
    callsWithin es = es.flatMap Expression.operandCalls := by
  induction es with
  | nil => rfl
  | cons e es ih => rw [callsWithin, ih, List.flatMap_cons]

theorem expressionsOf_append (ss ts : List Statement) :
    expressionsOf (ss ++ ts) = expressionsOf ss ++ expressionsOf ts := by
  induction ss with
  | nil => rfl
  | cons s ss ih => rw [List.cons_append, expressionsOf, expressionsOf, ih, List.append_assoc]

/-! Every expression of a program that is parsed has its operators behind their operands. -/

def AllPostorder (es : List Expression) : Prop := ∀ e ∈ es, Postorder e.elements

namespace AllPostorder

variable {es fs : List Expression} {e : Expression}

theorem nil : AllPostorder [] := by simp [AllPostorder]

theorem cons (he : Postorder e.elements) (hes : AllPostorder es) : AllPostorder (e :: es) :=
  List.forall_mem_cons.2 ⟨he, hes⟩

theorem append (hes : AllPostorder es) (hfs : AllPostorder fs) : AllPostorder (es ++ fs) :=
  List.forall_mem_append.2 ⟨hes, hfs⟩

end AllPostorder

variable {ts : List Token}

theorem allPostorder_of_listed {es : List Expression} (h : Listed Expression.Spelled ts es) :
    AllPostorder es := by
  induction h with
  | one he => exact .cons (Expression.postorder_of_parse he) .nil
  | more he _ _ ih => exact .cons (Expression.postorder_of_parse he) ih

theorem Expression.Arguments.allPostorder {es : List Expression} (h : Arguments ts es) :
    AllPostorder es := by
  cases h with
  | none => exact .nil
  | some _ hl _ => exact allPostorder_of_listed hl

theorem Assignment.Spelled.allPostorder {p : Location} {a : Assignment} (h : Spelled p ts a) :
    AllPostorder a.expressions := by
  cases h with
  | mk htarget _ hvalue =>
    refine .cons (Expression.postorder_of_parse hvalue) ?_
    cases htarget with
    | mk _ hindices =>
      cases hindices with
      | none => exact .nil
      | some _ hl _ => exact allPostorder_of_listed hl

namespace Statement

mutual

theorem Spelled.allPostorder {ts : List Token} {s : Statement} (h : Spelled ts s) :
    AllPostorder s.expressions := by
  cases h with
  | assignment ha => exact ha.allPostorder
  | call _ hargs => exact hargs.allPostorder
  | result _ hvalue => exact .cons (Expression.postorder_of_parse hvalue) .nil
  | conditional _ hc _ _ hb _ =>
    exact .append (.cons (Expression.postorder_of_parse hc) hb.allPostorder) .nil
  | alternative _ hc _ _ hb _ _ ho _ =>
    exact .append (.cons (Expression.postorder_of_parse hc) hb.allPostorder) ho.allPostorder
  | whileLoop _ hc _ hb _ _ => exact .cons (Expression.postorder_of_parse hc) hb.allPostorder
  | untilLoop _ _ hb _ _ _ hc => exact .cons (Expression.postorder_of_parse hc) hb.allPostorder
  | counting _ hs _ hbound _ hb _ =>
    exact .append (.cons (Expression.postorder_of_parse hbound) hs.allPostorder) hb.allPostorder

theorem Block.allPostorder {ts : List Token} {ss : List Statement} (h : Block ts ss) :
    AllPostorder (expressionsOf ss) := by
  cases h with
  | nil => exact .nil
  | cons hs _ hss => exact hs.allPostorder.append hss.allPostorder

end

theorem Declarations.expressions {ds : List Statement} (h : Declarations ts ds) :
    expressionsOf ds = [] := by
  induction h with
  | nil => rfl
  | cons hd _ _ ih =>
    cases hd
    exact ih

end Statement

namespace Module

theorem Body.allPostorder {closer : Keyword} {body : List Statement} (h : Body closer ts body) :
    AllPostorder (expressionsOf body) := by
  cases h with
  | mk hds _ _ hss _ =>
    rw [expressionsOf_append, hds.expressions]
    exact hss.allPostorder

theorem expressionsOf_redeclared (vs : List Variable) (p : Location) :
    expressionsOf (redeclared vs p) = [] := by
  cases vs <;> rfl

theorem Spelled.allPostorder {m : Module} (h : Spelled ts m) :
    AllPostorder (expressionsOf m.body) := by
  cases h with
  | main _ _ hb => exact hb.allPostorder
  | function _ _ _ _ _ hb | procedure _ _ _ _ hb =>
    rw [expressionsOf_append, expressionsOf_redeclared]
    exact hb.allPostorder

theorem Followers.exists_piece {ms : List Module} (h : Followers ts ms) :
    ∀ m ∈ ms, ∃ us, us <:+: ts ∧ Spelled us m := by
  induction h with
  | nil => simp
  | @cons ns us vs m ms _ hm _ ih =>
    refine List.forall_mem_cons.2 ⟨⟨us, ⟨ns, vs, rfl⟩, hm⟩, fun n hn => ?_⟩
    obtain ⟨ws, hin, hn⟩ := ih n hn
    exact ⟨ws, hin.trans (List.suffix_append _ vs).isInfix, hn⟩

end Module

namespace Program

/-- The tokens of each module stand in one piece. -/
theorem Spelled.exists_piece {p : Program} (h : Spelled ts p) :
    ∀ m ∈ p.modules, ∃ us, us <:+: ts ∧ Module.Spelled us m := by
  cases h with
  | @mk above us vs below m ms _ _ hm hms _ hmain hsub _ =>
    have hall : ∀ n ∈ m :: ms, ∃ ws, ws <:+: above ++ us ++ vs ++ below ∧ Module.Spelled ws n := by
      refine List.forall_mem_cons.2 ⟨⟨us, ⟨above, vs ++ below, by simp⟩, hm⟩, fun n hn => ?_⟩
      obtain ⟨ws, hin, hn⟩ := hms.exists_piece n hn
      exact ⟨ws, hin.trans ⟨above ++ us, below, rfl⟩, hn⟩
    intro n hn
    cases List.mem_cons.1 hn with
    | inl he =>
      have hmem : p.main ∈ (m :: ms).filter (·.kind = .main) := by simp [hmain]
      exact he ▸ hall _ (List.mem_filter.1 hmem).1
    | inr hn => exact hall n (List.mem_filter.1 (hsub ▸ hn)).1

theorem Spelled.spelled {p : Program} (h : Spelled ts p) :
    ∀ m ∈ p.modules, ∃ us, Module.Spelled us m := by
  intro m hm
  obtain ⟨us, -, hus⟩ := h.exists_piece m hm
  exact ⟨us, hus⟩

theorem Spelled.allPostorder {p : Program} (h : Spelled ts p) {m : Module} (hm : m ∈ p.modules) :
    AllPostorder (expressionsOf m.body) := by
  obtain ⟨us, hus⟩ := h.spelled m hm
  exact hus.allPostorder

theorem Spelled.main {p : Program} (h : Spelled ts p) :
    p.main.kind = .main ∧ p.main.name = Module.mainName := by
  obtain ⟨us, hus⟩ := h.spelled p.main List.mem_cons_self
  cases h with
  | @mk _ _ _ _ m ms _ _ _ _ _ hmain _ _ =>
    have hmem : p.main ∈ (m :: ms).filter (·.kind = .main) := by simp [hmain]
    have hkind : p.main.kind = .main := by simpa using (List.mem_filter.1 hmem).2
    refine ⟨hkind, ?_⟩
    generalize p.main = n at hus hkind
    cases hus with
    | main => rfl
    | function | procedure => cases hkind

theorem Spelled.free {p : Program} (h : Spelled ts p) : NamesFree p.subprograms := by
  cases h
  assumption

end Program
end Seudocodigo
