import Seudocodigo.Proofs.Stack.Levels
import Seudocodigo.Proofs.Stack.Soundness

/-! Along walks through the graph of a module the height of the stack depends on nothing but the
node that the walk has come to, whatever the types of the operands are. -/
namespace Seudocodigo

/-- The height of the stack after the node. A test takes the truth value that its condition puts on
the stack. -/
def Node.heightAfter? (functions : List String) : Node → Nat → Option Nat
  | .generic a _, height => a.heightAfter? functions height
  | .branch condition .., height | .loop _ condition .., height =>
    (Seudocodigo.heightAfter? functions condition height).bind fun top =>
      if 1 ≤ top then some (top - 1) else none

def heightAlong? (functions : List String) (nodes : List Node) (height : Nat) : Option Nat :=
  nodes.foldlM (fun h node => node.heightAfter? functions h) height

/-- The nodes that a walk along control passes from one place to another. Before each step the
selectors can be set anew. -/
inductive Graph.Wander (g : Graph) : Option NodeId → List Node → Option NodeId → Prop where
  | stay (at? : Option NodeId) : Wander g at? [] at?
  | step {selected : Graph} {id : NodeId} {node : Node} {nodes : List Node} {to? : Option NodeId} :
    selected.Resembles g → selected.find? id = some node → Wander g node.controlNext nodes to? →
    Wander g (some id) (node :: nodes) to?

variable {fs : List String} {heights : List Nat}

namespace Node.Fits

variable {node other : Node} {height : Nat}

theorem of_unselected (h : node.Fits fs heights height) (ho : other.unselected = node.unselected) :
    other.Fits fs heights height := by
  cases node <;> cases other <;> cases ho <;> exact h

/-- The height that a node leaves is that of the node which its selector chooses. -/
theorem controlNext (h : node.Fits fs heights height) :
    ∃ left, node.heightAfter? fs height = some left ∧
      heightAt heights node.controlNext = some left := by
  cases node with
  | generic a next => exact h
  | branch condition trueHead falseHead next selector =>
    obtain ⟨rfl, hcondition, htrue, hfalse, hnext⟩ := h
    refine ⟨0, by rw [heightAfter?, hcondition]; rfl, ?_⟩
    cases selector <;> assumption
  | loop kind condition bodyHead next selector =>
    obtain ⟨rfl, hcondition, hbody, hnext⟩ := h
    refine ⟨0, by rw [heightAfter?, hcondition]; rfl, ?_⟩
    cases selector <;> assumption

theorem test (h : node.Fits fs heights height) {condition : List Action}
    (hc : node.condition? = some condition) :
    height = 0 ∧ Seudocodigo.heightAfter? fs condition 0 = some 1 := by
  cases node with
  | generic => cases hc
  | branch => cases hc; exact ⟨h.1, h.2.1⟩
  | loop => cases hc; exact ⟨h.1, h.2.1⟩

end Node.Fits

/-- What one step keeps a whole walk keeps. -/
theorem Graph.Levels.wander {g : Graph} (h : g.Levels fs heights) {from? to? : Option NodeId}
    {nodes : List Node} (hw : g.Wander from? nodes to?) {height : Nat}
    (hfrom : heightAt heights from? = some height) :
    ∃ left, heightAlong? fs nodes height = some left ∧ heightAt heights to? = some left := by
  induction hw generalizing height with
  | stay at? => exact ⟨height, rfl, hfrom⟩
  | @step selected id node nodes to? hselected hnode _ ih =>
    obtain ⟨other, hother, hsame⟩ := hselected.find? hnode
    obtain ⟨height', hheight, hfits⟩ := h.fits hother
    obtain rfl : height = height' := Option.some.inj (hfrom.symm.trans hheight)
    obtain ⟨left, hleft, hnext⟩ := (hfits.of_unselected hsame.symm).controlNext
    obtain ⟨last, hlast, hto⟩ := ih hnext
    refine ⟨last, ?_, hto⟩
    rw [heightAlong?, List.foldlM_cons, hleft]
    exact hlast

/-- What leaves a value by the signatures of a program is a call of one of its functions. -/
theorem Program.yieldsFor_functions {p : Program} (h : NamesFree p.subprograms) :
    p.signatures.YieldsFor p.functions := by
  intro name
  rw [Signatures.yields, Bool.and_eq_true, Bool.not_eq_true', functions, List.mem_map]
  constructor
  · rintro ⟨-, hyields⟩
    obtain ⟨t, ht⟩ := Option.isSome_iff_exists.1 hyields
    obtain ⟨sig, hsig, hreturns⟩ := Option.bind_eq_some_iff.1 ht
    obtain ⟨f, hf, hname, rfl⟩ := (find?_signatures h).1 hsig
    exact ⟨f, List.mem_filter.2 ⟨hf, Option.isSome_of_eq_some hreturns⟩, hname⟩
  · rintro ⟨f, hf, rfl⟩
    obtain ⟨hf, hreturns⟩ := List.mem_filter.1 hf
    rw [(find?_signatures h).2 ⟨f, hf, rfl, rfl⟩]
    exact ⟨h.isBuiltin hf, hreturns⟩

/-- Of a program that is parsed, whatever its types, take a module in which all calls that are
operands are calls of functions of the program. Its nodes have heights such that every walk from its
entry, however the selectors are set, finds the operands that it needs and comes to each node with
the height of that node. The height is zero at the end, at the first node of every statement and at
every test, and the condition of a test puts just one operand on the stack. -/
theorem Program.balanced_of_ofTokens {tokens : List Token} {p : Program}
    (h : Program.ofTokens tokens = .ok p) {m : Module} (hm : m ∈ p.modules)
    (hcalls : ∀ callee ∈ m.operandCalls,
      ∃ f ∈ p.subprograms, f.name = callee ∧ f.returns?.isSome = true) :
    let s := p.signatures
    let compiled := m.hoisted.compile s
    ∃ heights : List Nat,
      (∀ nodes to?, compiled.graph.Wander compiled.entry nodes to? →
        ∃ height, heightAlong? p.functions nodes 0 = some height ∧
          heightAt heights to? = some height) ∧
      (∀ id ∈ headsOf s .empty m.hoisted.module.body, heights[id]? = some 0) ∧
      ∀ id node condition, compiled.graph.find? id = some node →
        node.condition? = some condition →
          heights[id]? = some 0 ∧ heightAfter? p.functions condition 0 = some 1 := by
  intro s compiled
  have hspelled := spelled_of_ofTokens h
  have hbody : expressionsOf m.hoisted.module.body = expressionsOf m.body :=
    expressionsOf_filter m.body
  have hyields := yieldsFor_functions hspelled.free
  have husable : ∀ e ∈ expressionsOf m.hoisted.module.body, e.Usable s := by
    rw [hbody]
    refine fun e he => ⟨hspelled.allPostorder hm e he, fun callee hcallee => ?_⟩
    rw [← Expression.operandCalls_eq] at hcallee
    obtain ⟨f, hf, rfl, hr⟩ := hcalls callee (List.mem_flatMap_of_mem he hcallee)
    exact (hyields f.name).2 (List.mem_map_of_mem (List.mem_filter.2 ⟨hf, hr⟩))
  obtain ⟨heights, hlevels, hentry, hheads⟩ :=
    Build.keeps_flowOf hyields m.hoisted.module.body husable .empty [] .empty
  rw [List.nil_append] at hlevels hentry hheads
  refine ⟨heights, fun nodes to? hw => hlevels.wander hw hentry, hheads, ?_⟩
  intro id node condition hnode hcondition
  obtain ⟨height, hheight, hfits⟩ := hlevels.fits hnode
  obtain ⟨rfl, hruns⟩ := hfits.test hcondition
  exact ⟨hheight, hruns⟩

def wronglyTyped : String :=
  "entero funcion doble(entero n)\ninicio\nretornar n * 2\nfinfuncion\n"
    ++ "variables\ninicio\nmientras doble(1)\nescribir(verdadero + doble(2))\nfinmientras\nfin\n"

theorem balanced_wronglyTyped :
    ∃ tokens p, tokenize wronglyTyped = .ok tokens ∧ Program.ofTokens tokens = .ok p ∧
      p.reports.isEmpty = false ∧
        ∃ heights : List Nat, ∀ nodes to?,
          p.flow.main.graph.Wander p.flow.main.entry nodes to? →
            ∃ height, heightAlong? p.functions nodes 0 = some height ∧
              heightAt heights to? = some height := by
  have hcheck : ((tokenize wronglyTyped).toOption.bind fun tokens =>
      (Program.ofTokens tokens).toOption).any (fun p => decide (p.reports.isEmpty = false ∧
        ∀ callee ∈ p.main.operandCalls,
          ∃ f ∈ p.subprograms, f.name = callee ∧ f.returns?.isSome = true)) = true := by
    decide +kernel
  cases ht : tokenize wronglyTyped with
  | error errors => rw [ht] at hcheck; cases hcheck
  | ok tokens =>
    rw [ht] at hcheck
    have hcheck : (Program.ofTokens tokens).toOption.any _ = true := hcheck
    cases hp : Program.ofTokens tokens with
    | error e => rw [hp] at hcheck; cases hcheck
    | ok p =>
      rw [hp] at hcheck
      obtain ⟨hwrong, hcalls⟩ := of_decide_eq_true hcheck
      obtain ⟨heights, hwander, -⟩ := Program.balanced_of_ofTokens hp List.mem_cons_self hcalls
      exact ⟨tokens, p, rfl, hp, hwrong, heights, hwander⟩

end Seudocodigo
