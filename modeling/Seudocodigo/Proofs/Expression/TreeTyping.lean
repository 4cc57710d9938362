import Seudocodigo.Proofs.Expression.Formula
import Seudocodigo.Proofs.Expression.Settled

/-! The types of expressions as trees: operands before their operator, the left one first, indices
and arguments from left to right. What operators demand and give stands in a table. The stack of
types finds the same type, or the same thing wrong. -/
namespace Seudocodigo

/-- Operators that demand the same of their operands, and the type of what they give. -/
structure OperatorRow where
  operators : List Operator
  demands : List Ty → Bool
  gives : List Ty → Ty

namespace OperatorRow

def numeric (ts : List Ty) : Bool := ts.all fun t => t = .integer || t = .real

theorem numeric_eq (ts : List Ty) : numeric ts = ts.all Ty.isNumeric := by
  refine congrArg ts.all (funext fun t => ?_)
  cases t with
  | atomic a => cases a <;> rfl
  | array => rfl

def table : List OperatorRow :=
  [⟨[.plus, .minus, .times, .power], numeric,
      fun ts => if ts.all (· = .integer) then .integer else .real⟩,
    ⟨[.divide], numeric, fun _ => .real⟩,
    ⟨[.neg], numeric, fun ts => ts.headD .void⟩,
    ⟨[.div, .mod], fun ts => ts.all (· = .integer), fun _ => .integer⟩,
    ⟨[.less, .lessEqual, .greater, .greaterEqual, .equal, .different],
      fun ts => ts.Pairwise (· = ·) || numeric ts, fun _ => .logical⟩,
    ⟨[.and, .or, .not], fun ts => ts.all (· = .logical), fun _ => .logical⟩]

end OperatorRow

namespace Operator

def given? (op : Operator) (operands : List Ty) : Option Ty :=
  (OperatorRow.table.find? (·.operators.contains op)).bind fun row =>
    if row.demands operands then some (row.gives operands) else none

theorem given?_unary {op : Operator} (hop : op.leadsOperand = true) (t : Ty) :
    op.given? [t] = op.unaryType? t := by
  cases op with
  | neg => simp [given?, OperatorRow.table, OperatorRow.numeric_eq, unaryType?]
  | not =>
    by_cases ht : t = .logical
    · rw [ht]
      rfl
    · simp [given?, OperatorRow.table, unaryType?, ht]
  | _ => cases hop

theorem given?_binary {op : Operator} (hop : op.leadsOperand = false) (l r : Ty) :
    op.given? [l, r] = op.binaryType? l r := by
  cases op with
  | neg | not => cases hop
  | _ => simp [given?, OperatorRow.table, OperatorRow.numeric_eq, binaryType?]

end Operator

def Formula.isAccess : Formula → Bool
  | .access .. => true
  | _ => false

/-- What a term must meet at its position, counted from zero, when it has a type. -/
abbrev TermRule := Nat → Term → Ty → Except TypeError Unit

namespace TermRule

def index (name : String) : TermRule := fun _ t ty =>
  if ty = .integer then return () else throw ⟨.index name ty, t.location⟩

def reference (name : String) (byReference : Bool) : TermRule := fun i t _ =>
  if byReference && !t.formula.isAccess then
    throw ⟨.referenceNeedsVariable name (i + 1), t.location⟩
  else return ()

def argument (name : String) (params : List Variable) : TermRule := fun i t ty =>
  match params[i]? with
  | none => return ()
  | some v =>
    if ty = v.ty then reference name v.byReference i t ty
    else throw ⟨.argument name (i + 1) v.ty ty, t.location⟩

def builtin (name : String) : TermRule := fun i t ty =>
  if ty.isPrintable then reference name (name = "leer") i t ty
  else throw ⟨.builtinArgument name (i + 1) ty, t.location⟩

end TermRule

mutual

/-- The type of a formula within an expression that stands at `p`, or the first thing wrong with
it. -/
def Formula.type (Γ : Context) (p : Location) : Formula → Except TypeError Ty
  | .literal value => return value.ty
  | .access name indices =>
    match Γ.scope.find? name with
    | none => throw ⟨.undefinedVariable name, p⟩
    | some v =>
      if v.dims.length < indices.length then
        throw ⟨.tooManyIndices name v.dims.length indices.length, p⟩
      else do
        checkTerms Γ (.index name) 0 indices
        return .ofDims v.atom (v.dims.drop indices.length)
  | .call name args q =>
    if Module.isBuiltin name then do
      checkTerms Γ (.builtin name) 0 args
      return .void
    else
      match Γ.signatures.find? name with
      | none => throw ⟨.undefinedModule name, q⟩
      | some s =>
        if args.length = s.parameters.length then do
          checkTerms Γ (.argument name s.parameters) 0 args
          return s.returns?.getD .void
        else throw ⟨.argumentCount name s.parameters.length args.length, q⟩
  | .unary op _ t => do
    let operand ← t.type Γ p
    match op.given? [operand] with
    | some ty => return ty
    | none => throw ⟨.operand op operand, p⟩
  | .binary op _ l r => do
    let left ← l.type Γ p
    let right ← r.type Γ p
    match op.given? [left, right] with
    | some ty => return ty
    | none => throw ⟨.operands op left right, p⟩

def checkTerms (Γ : Context) (rule : TermRule) : Nat → List Term → Except TypeError Unit
  | _, [] => return ()
  | i, ⟨t, p⟩ :: ts => do
    rule i ⟨t, p⟩ (← t.type Γ p)
    checkTerms Γ rule (i + 1) ts

end

def Term.type (Γ : Context) (t : Term) : Except TypeError Ty := t.formula.type Γ t.location

section Tree

variable {Γ : Context} {name : String} {p : Location}

theorem checkTerms_cons (rule : TermRule) (i : Nat) (t : Term) (ts : List Term) :
    checkTerms Γ rule i (t :: ts) =
      t.type Γ >>= fun ty => rule i t ty >>= fun _ => checkTerms Γ rule (i + 1) ts := by
  obtain ⟨t, p⟩ := t
  rw [checkTerms, Term.type]

theorem Term.location_expression (t : Term) : t.expression.location = t.location := by
  obtain ⟨t, p⟩ := t
  rw [Term.expression]

/-- Only accesses spell expressions that are nothing but an access. -/
theorem Term.isNone_access? (t : Term) :
    t.expression.access?.isNone = !t.formula.isAccess := by
  obtain ⟨t, p⟩ := t
  cases h : Expression.access? (Term.expression ⟨t, p⟩) with
  | some a =>
    have helements := Expression.access?_eq_some.1 h
    rw [Term.expression] at helements
    obtain ⟨ts, rfl, -⟩ := Formula.eq_access_of_elements helements
    rfl
  | none =>
    cases t with
    | access name indices =>
      rw [Term.expression, Formula.elements] at h
      cases h
    | _ => rfl

/-! Each check of a list in turn, when its terms have the types of what they spell. -/

theorem checkIndices_terms {ts : List Term} (h : ∀ t ∈ ts, t.expression.type Γ = t.type Γ)
    (i : Nat) : checkIndices Γ name (expressionsOfTerms ts) = checkTerms Γ (.index name) i ts := by
  induction ts generalizing i with
  | nil => rw [expressionsOfTerms, checkIndices, checkTerms]
  | cons t ts ih =>
    obtain ⟨ht, hts⟩ := List.forall_mem_cons.1 h
    rw [expressionsOfTerms, checkIndices, checkTerms_cons, ht, Term.location_expression]
    refine congrArg (t.type Γ >>= ·) (funext fun ty => ?_)
    rw [TermRule.index, ih hts (i + 1)]
    split <;> rfl

theorem checkArguments_terms {ts : List Term} (h : ∀ t ∈ ts, t.expression.type Γ = t.type Γ)
    {params : List Variable} {i : Nat} (hlen : ts.length + i = params.length) :
    checkArguments Γ name (i + 1) (expressionsOfTerms ts) (params.drop i) =
      checkTerms Γ (.argument name params) i ts := by
  induction ts generalizing i with
  | nil =>
    rw [expressionsOfTerms, checkTerms, checkArguments]
    intro _ _ _ _ h
    cases h
  | cons t ts ih =>
    obtain ⟨ht, hts⟩ := List.forall_mem_cons.1 h
    rw [List.length_cons] at hlen
    have hi : i < params.length := by omega
    rw [List.drop_eq_getElem_cons hi, expressionsOfTerms, checkArguments, checkTerms_cons, ht,
      Term.location_expression, Term.isNone_access?]
    refine congrArg (t.type Γ >>= ·) (funext fun ty => ?_)
    rw [TermRule.argument, List.getElem?_eq_getElem hi, ih hts (by omega)]
    dsimp only
    rw [TermRule.reference]
    by_cases hty : ty = params[i].ty
    · rw [if_neg (not_not_intro hty), if_pos hty]
      split <;> rfl
    · rw [if_pos hty, if_neg hty]
      rfl

theorem checkBuiltinArguments_terms {ts : List Term}
    (h : ∀ t ∈ ts, t.expression.type Γ = t.type Γ) (i : Nat) :
    checkBuiltinArguments Γ name (i + 1) (expressionsOfTerms ts) =
      checkTerms Γ (.builtin name) i ts := by
  induction ts generalizing i with
  | nil => rw [expressionsOfTerms, checkBuiltinArguments, checkTerms]
  | cons t ts ih =>
    obtain ⟨ht, hts⟩ := List.forall_mem_cons.1 h
    rw [expressionsOfTerms, checkBuiltinArguments, checkTerms_cons, ht, Term.location_expression,
      Term.isNone_access?]
    refine congrArg (t.type Γ >>= ·) (funext fun ty => ?_)
    rw [TermRule.builtin, ih hts (i + 1), TermRule.reference]
    cases ty.isPrintable with
    | false => rfl
    | true =>
      rw [if_neg (by decide), if_pos rfl]
      split <;> rfl

/-! The access or call around them. -/

theorem Access.type_terms {ts : List Term} (h : ∀ t ∈ ts, t.expression.type Γ = t.type Γ) :
    Access.type Γ p ⟨name, expressionsOfTerms ts⟩ = (Formula.access name ts).type Γ p := by
  rw [Access.type, Formula.type]
  cases Γ.scope.find? name with
  | none => rfl
  | some v =>
    dsimp only
    rw [length_expressionsOfTerms, checkIndices_terms h 0]

theorem Call.check_terms {ts : List Term} (h : ∀ t ∈ ts, t.expression.type Γ = t.type Γ)
    (q : Location) :
    (Call.check Γ ⟨name, expressionsOfTerms ts, p⟩ >>= fun _ => .ok (Γ.callType name)) =
      (Formula.call name ts p).type Γ q := by
  rw [Call.check, Formula.type, Context.callType, length_expressionsOfTerms,
    checkBuiltinArguments_terms h 0]
  split
  · rfl
  · cases Γ.signatures.find? name with
    | none => rfl
    | some s =>
      dsimp only
      split
      · next hlen =>
        rw [← checkArguments_terms h hlen]
        rfl
      · rfl

mutual

/-- The elements of a formula put its type on the stack. -/
theorem Formula.typeElements_eq (t : Formula) (p : Location) (stack : List Ty) :
    typeElements Γ p t.elements stack = t.type Γ p >>= fun ty => .ok (ty :: stack) := by
  cases t with
  | literal value =>
    rw [Formula.elements, Formula.type, typeElements_literal]
    rfl
  | access name indices =>
    rw [Formula.elements, typeElements_access, Access.type_terms (Term.types_eq indices)]
  | call name args q =>
    rw [Formula.elements, typeElements_call, ← Call.check_terms (Term.types_eq args), bind_assoc]
    rfl
  | unary op hop t =>
    rw [Formula.elements, Formula.type, typeElements_append, Formula.typeElements_eq t, bind_assoc,
      bind_assoc]
    refine congrArg (t.type Γ p >>= ·) (funext fun ty => ?_)
    rw [Operator.given?_unary hop]
    exact (typeElements_operator op _).trans (Operator.typeOnto_unary hop ty stack)
  | binary op hop l r =>
    rw [Formula.elements, Formula.type]
    simp only [typeElements_append, Formula.typeElements_eq l, bind_assoc]
    refine congrArg (l.type Γ p >>= ·) (funext fun left => ?_)
    show typeElements Γ p r.elements (left :: stack) >>= _ = _
    rw [Formula.typeElements_eq r, bind_assoc]
    refine congrArg (r.type Γ p >>= ·) (funext fun right => ?_)
    rw [Operator.given?_binary hop]
    exact (typeElements_operator op _).trans (Operator.typeOnto_binary hop left right stack)

theorem Term.types_eq (ts : List Term) : ∀ t ∈ ts, t.expression.type Γ = t.type Γ := by
  cases ts with
  | nil => nofun
  | cons t ts =>
    refine List.forall_mem_cons.2 ⟨?_, Term.types_eq ts⟩
    obtain ⟨t, p⟩ := t
    rw [Term.expression, Expression.type, Formula.typeElements_eq t, bind_assoc, Term.type]
    exact bind_pure _

end

end Tree

/-- The type of what is parsed, or the first thing wrong with it, is that of the only term that
spells it. -/
theorem Expression.type_eq_type_of_term {c d : Cursor} {e : Expression}
    (h : Expression.parse.outcome c = (.ok e, d)) :
    ∃ t : Term, (∀ u : Term, u.expression = e ↔ u = t) ∧ ∀ Γ, e.type Γ = t.type Γ := by
  obtain ⟨t, ht⟩ := existsUnique_term h
  obtain rfl : t.expression = e := (ht t).2 rfl
  exact ⟨t, ht, fun Γ => Term.types_eq [t] t (List.mem_singleton_self t)⟩

/-- The tokens of `m[x] + f(z)`, each in a column of its own. -/
def indexedPlusCall : List Token :=
  [TokenKind.word "m", .symbol .leftBracket, .word "x", .symbol .rightBracket, .symbol .plus,
    .word "f", .symbol .leftParen, .word "z", .symbol .rightParen].mapIdx
      fun i kind => ⟨kind, kind.text, ⟨1, i + 1⟩⟩

def matrixAndReal : Context :=
  let m : Variable := ⟨"m", .integer, [2, 3], false, .start⟩
  let x : Variable := ⟨"x", .real, [], false, .start⟩
  ⟨.ofList [], ⟨[.ofVariable m, .ofVariable x], by decide⟩, "f", none⟩

theorem Expression.type_indexedPlusCall : ∃ e d,
    Expression.parse.outcome (.ofTokens indexedPlusCall) = (.ok e, d) ∧
      e.type matrixAndReal = .error ⟨.index "m" .real, ⟨1, 3⟩⟩ := by
  let index : Term := ⟨.access "x" [], ⟨1, 3⟩⟩
  let arg : Term := ⟨.access "z" [], ⟨1, 8⟩⟩
  let t : Term := ⟨.binary .plus rfl (.access "m" [index]) (.call "f" [arg] ⟨1, 6⟩), ⟨1, 1⟩⟩
  have hparse : (Expression.parse.outcome (.ofTokens indexedPlusCall)).1 = .ok t.expression := by
    rfl
  obtain ⟨u, hu, htype⟩ := type_eq_type_of_term (Prod.ext hparse rfl)
  obtain rfl : t = u := (hu t).1 rfl
  refine ⟨t.expression, _, Prod.ext hparse rfl, ?_⟩
  rw [htype]
  rfl

end Seudocodigo
