import Seudocodigo.Module.Parse
import Seudocodigo.Proofs.Parse.Reads

/-! The grammar of programs: which lists of tokens spell what. Each construct stands at the place of
its first token. The words for types, the names that are taken and the declaration that parameters
amount to are the grammar's own; that the parser has the same ones is proved beside them. -/
namespace Seudocodigo

namespace TokenKind

inductive TypeWord : TokenKind → Atom → Prop where
  | entero : TypeWord (.keyword .entero) .integer
  | real : TypeWord (.keyword .real) .real
  | logico : TypeWord (.keyword .logico) .logical
  | caracter : TypeWord (.keyword .caracter) .character

theorem TypeWord.atom? {k : TokenKind} {a : Atom} (h : k.TypeWord a) : k.atom? = some a := by
  cases h <;> rfl

theorem typeWord_of_atom? {k : TokenKind} {a : Atom} (h : k.atom? = some a) : k.TypeWord a := by
  cases k with
  | keyword k => cases k <;> cases h <;> constructor
  | _ => cases h

/-- A word for a type is no other token. -/
theorem TypeWord.ne {k l : TokenKind} {a : Atom} (h : k.TypeWord a) (hl : l.atom? = none) :
    k ≠ l := by
  rintro rfl
  cases h.atom?.symm.trans hl

end TokenKind

/-- The tokens are an expression: the parser of expressions passes all of them. -/
def Expression.Spelled (ts : List Token) (e : Expression) : Prop :=
  Expression.parse.outcome (.before ts (.ofTokens [])) = (.ok e, .ofTokens [])

inductive Expression.Indices : List Token → List Expression → Prop where
  | none : Indices [] []
  | some {t u : Token} {ts : List Token} {es : List Expression} :
    t.kind = .symbol .leftBracket → Listed Expression.Spelled ts es →
    u.kind = .symbol .rightBracket → Indices (t :: ts ++ [u]) es

inductive Expression.Arguments : List Token → List Expression → Prop where
  | none {t u : Token} :
    t.kind = .symbol .leftParen → u.kind = .symbol .rightParen → Arguments [t, u] []
  | some {t u : Token} {ts : List Token} {es : List Expression} :
    t.kind = .symbol .leftParen → Listed Expression.Spelled ts es →
    u.kind = .symbol .rightParen → Arguments (t :: ts ++ [u]) es

inductive Access.Spelled : List Token → Access → Prop where
  | mk {t : Token} {ts : List Token} {name : String} {es : List Expression} :
    t.kind = .word name → Expression.Indices ts es → Spelled (t :: ts) ⟨name, es⟩

inductive Assignment.Spelled (p : Location) : List Token → Assignment → Prop where
  | mk {t : Token} {ts us : List Token} {target : Access} {value : Expression} :
    Access.Spelled ts target → t.kind = .symbol .arrow → Expression.Spelled us value →
    Spelled p (ts ++ t :: us) ⟨target, value, p⟩

mutual

inductive Statement.Spelled : List Token → Statement → Prop where
  | assignment {t : Token} {ts : List Token} {a : Assignment} :
    Assignment.Spelled t.location (t :: ts) a → Spelled (t :: ts) (.assignment a)
  | call {t : Token} {ts : List Token} {name : String} {args : List Expression} :
    t.kind = .word name → Expression.Arguments ts args →
    Spelled (t :: ts) (.call ⟨name, args, t.location⟩)
  | result {t : Token} {ts : List Token} {value : Expression} :
    t.kind = .keyword .retornar → Expression.Spelled ts value →
    Spelled (t :: ts) (.result value t.location)
  | conditional {t u w : Token} {ts ns us : List Token} {condition : Expression}
      {body : List Statement} :
    t.kind = .keyword .si → Expression.Spelled ts condition → u.kind = .keyword .entonces →
    LineEnds ns → Block us body → w.kind = .keyword .finsi →
    Spelled (t :: ts ++ u :: ns ++ us ++ [w]) (.conditional condition body [] t.location)
  | alternative {t u v w : Token} {ts ns us ms vs : List Token} {condition : Expression}
      {body other : List Statement} :
    t.kind = .keyword .si → Expression.Spelled ts condition → u.kind = .keyword .entonces →
    LineEnds ns → Block us body → v.kind = .keyword .sino → LineEnds ms → Block vs other →
    w.kind = .keyword .finsi →
    Spelled (t :: ts ++ u :: ns ++ us ++ v :: ms ++ vs ++ [w])
      (.conditional condition body other t.location)
  | whileLoop {t w : Token} {ts ns us : List Token} {condition : Expression}
      {body : List Statement} :
    t.kind = .keyword .mientras → Expression.Spelled ts condition → LineEnds ns →
    Block us body → body ≠ [] → w.kind = .keyword .finmientras →
    Spelled (t :: ts ++ ns ++ us ++ [w]) (.whileLoop condition body t.location)
  | untilLoop {t v w : Token} {ns us ts : List Token} {body : List Statement}
      {condition : Expression} :
    t.kind = .keyword .repetir → LineEnds ns → Block us body → body ≠ [] →
    v.kind = .keyword .hasta → w.kind = .keyword .que → Expression.Spelled ts condition →
    Spelled (t :: ns ++ us ++ v :: w :: ts) (.untilLoop body condition t.location)
  | counting {t u w : Token} {ts us ns vs : List Token} {start : Assignment}
      {bound : Expression} {body : List Statement} :
    t.kind = .keyword .para → Assignment.Spelled t.location ts start →
    u.kind = .keyword .hasta → Expression.Spelled us bound → LineEnds ns → Block vs body →
    w.kind = .keyword .finpara →
    Spelled (t :: ts ++ u :: us ++ ns ++ vs ++ [w]) (.counting ⟨start, bound, body, t.location⟩)

inductive Statement.Block : List Token → List Statement → Prop where
  | nil : Block [] []
  | cons {ts ns us : List Token} {s : Statement} {ss : List Statement} :
    Spelled ts s → LineEnds ns → Block us ss → Block (ts ++ ns ++ us) (s :: ss)

end

namespace Variable

inductive Length : List Token → Nat → Prop where
  | mk {t : Token} {len : Int} : t.kind = .integer len → 0 < len → Length [t] len.toNat

/-- Nothing, or lengths in brackets that give no more cells than an array may have. -/
inductive Dimensions : List Token → List Nat → Prop where
  | none : Dimensions [] []
  | some {t u : Token} {ts : List Token} {dims : List Nat} :
    t.kind = .symbol .leftBracket → Listed Length ts dims → dims.foldr (· * ·) 1 ≤ Nat.pow 2 24 →
    u.kind = .symbol .rightBracket → Dimensions (t :: ts ++ [u]) dims

inductive Declared (a : Atom) : List Token → Variable → Prop where
  | mk {t : Token} {ts : List Token} {name : String} {dims : List Nat} :
    t.kind = .word name → Dimensions ts dims →
    Declared a (t :: ts) ⟨name, a, dims, false, t.location⟩

inductive Parameter : List Token → Variable → Prop where
  | byValue {t u : Token} {ts : List Token} {a : Atom} {name : String} {dims : List Nat} :
    t.kind.TypeWord a → u.kind = .word name → Dimensions ts dims →
    Parameter (t :: u :: ts) ⟨name, a, dims, false, t.location⟩
  | byReference {r t u : Token} {ts : List Token} {a : Atom} {name : String} {dims : List Nat} :
    r.kind = .keyword .ref → t.kind.TypeWord a → u.kind = .word name → Dimensions ts dims →
    Parameter (r :: t :: u :: ts) ⟨name, a, dims, true, r.location⟩

inductive Parameters : List Token → List Variable → Prop where
  | none {t u : Token} :
    t.kind = .symbol .leftParen → u.kind = .symbol .rightParen → Parameters [t, u] []
  | some {t u : Token} {ts : List Token} {vs : List Variable} :
    t.kind = .symbol .leftParen → Listed Parameter ts vs → u.kind = .symbol .rightParen →
    Parameters (t :: ts ++ [u]) vs

end Variable

namespace Statement

inductive Declaration : List Token → Statement → Prop where
  | mk {t : Token} {ts : List Token} {a : Atom} {vs : List Variable} :
    t.kind.TypeWord a → Listed (Variable.Declared a) ts vs →
    Declaration (t :: ts) (.declaration vs t.location)

inductive Declarations : List Token → List Statement → Prop where
  | nil : Declarations [] []
  | cons {ts ns us : List Token} {s : Statement} {ss : List Statement} :
    Declaration ts s → LineEnds ns → Declarations us ss →
    Declarations (ts ++ ns ++ us) (s :: ss)

end Statement

namespace Module

inductive Body (closer : Keyword) : List Token → List Statement → Prop where
  | mk {t u : Token} {ts ns us : List Token} {ds ss : List Statement} :
    Statement.Declarations ts ds → t.kind = .keyword .inicio → LineEnds ns →
    Statement.Block us ss → u.kind = .keyword closer →
    Body closer (ts ++ t :: ns ++ us ++ [u]) (ds ++ ss)

def redeclared : List Variable → Location → List Statement
  | [], _ => []
  | v :: vs, p => [.declaration (v :: vs) p]

theorem redeclared_eq (vs : List Variable) (p : Location) :
    redeclared vs p = declareParameters vs p := by
  cases vs <;> rfl

inductive Spelled : List Token → Module → Prop where
  | main {t : Token} {ns ts : List Token} {body : List Statement} :
    t.kind = .keyword .vars → LineEnds ns → Body .fin ts body →
    Spelled (t :: ns ++ ts) ⟨"principal", .main, [], body, t.location⟩
  | function {t u w : Token} {ts ns us : List Token} {a : Atom} {name : String}
      {vs : List Variable} {body : List Statement} :
    t.kind.TypeWord a → u.kind = .keyword .funcion → w.kind = .word name →
    Variable.Parameters ts vs → LineEnds ns → Body .finfuncion us body →
    Spelled (t :: u :: w :: ts ++ ns ++ us)
      ⟨name, .function a, vs, redeclared vs t.location ++ body, t.location⟩
  | procedure {t w : Token} {ts ns us : List Token} {name : String} {vs : List Variable}
      {body : List Statement} :
    t.kind = .keyword .procedimiento → w.kind = .word name → Variable.Parameters ts vs →
    LineEnds ns → Body .finprocedimiento us body →
    Spelled (t :: w :: ts ++ ns ++ us)
      ⟨name, .procedure, vs, redeclared vs t.location ++ body, t.location⟩

inductive Followers : List Token → List Module → Prop where
  | nil : Followers [] []
  | cons {ns ts us : List Token} {m : Module} {ms : List Module} :
    LineEnds ns → Spelled ts m → Followers us ms → Followers (ns ++ ts ++ us) (m :: ms)

end Module

namespace Program

def reserved : List String := ["principal", "leer", "escribir", "escribir_linea"]

theorem not_mem_reserved {name : String} :
    name ∉ reserved ↔ name ≠ Module.mainName ∧ Module.isBuiltin name = false := by
  rw [reserved, List.mem_cons, not_or, Module.isBuiltin, List.contains_eq_mem,
    decide_eq_false_iff_not]
  rfl

structure NamesFree (ms : List Module) : Prop where
  distinct : (ms.map (·.name)).Nodup
  free : ∀ m ∈ ms, m.name ∉ reserved

section NamesFree

variable {ms : List Module} {m : Module}

theorem NamesFree.ne_mainName (h : NamesFree ms) (hm : m ∈ ms) : m.name ≠ Module.mainName :=
  (not_mem_reserved.1 (h.free m hm)).1

theorem NamesFree.isBuiltin (h : NamesFree ms) (hm : m ∈ ms) : Module.isBuiltin m.name = false :=
  (not_mem_reserved.1 (h.free m hm)).2

end NamesFree

inductive Spelled : List Token → Program → Prop where
  | mk {above ts us below : List Token} {m : Module} {ms : List Module} {p : Program} :
    (∀ t ∈ above, t.kind = .endOfLine) → Module.Spelled ts m → Module.Followers us ms →
    (∀ t ∈ below, t.kind = .endOfLine) → (m :: ms).filter (·.kind = .main) = [p.main] →
    (m :: ms).filter (·.kind ≠ .main) = p.subprograms → NamesFree p.subprograms →
    Spelled (above ++ ts ++ us ++ below) p

end Program
end Seudocodigo
