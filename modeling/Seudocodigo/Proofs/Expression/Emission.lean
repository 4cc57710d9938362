import Seudocodigo.Proofs.Expression.Parts
import Seudocodigo.Proofs.Stack.Code

/-! The actions that elements have: the own one of each, behind those of its indices and arguments.
The actions of a call stand in one piece among those of the whole, whether the arguments on the way
to it are passed by reference or not. -/
namespace Seudocodigo

/-- The actions of the indices or arguments of an element, which come before its own. -/
def Element.innerCode (s : Signatures) : Element → List Action
  | .literal _ | .operator _ => []
  | .access a => indexCode s a.indices
  | .call c => argumentCode s c.name 0 c.args

def Element.lastAction : Element → Action
  | .literal value => .push value
  | .operator op => .apply op
  | .access a => a.fetch
  | .call c => .call c.name c.args.length

section Code

variable (s : Signatures)

theorem Call.code_eq (c : Call) :
    c.code s = argumentCode s c.name 0 c.args ++ [.call c.name c.args.length] := by
  obtain ⟨name, args, q⟩ := c
  rw [Call.code]

theorem indexCode_eq (indices : List Expression) :
    indexCode s indices = indices.flatMap fun e => e.code s := by
  induction indices with
  | nil => rw [indexCode]; rfl
  | cons e es ih => rw [indexCode, ih, List.flatMap_cons]

theorem argumentCode_eq (module : String) (k : Nat) (args : List Expression) :
    argumentCode s module k args =
      (args.mapIdx fun i e => s.argumentOf module (k + i) e).flatten := by
  induction args generalizing k with
  | nil => rw [argumentCode]; rfl
  | cons e es ih =>
    rw [argumentCode_cons, ih, List.mapIdx_cons, List.flatten_cons]
    simp only [Nat.add_zero, Nat.add_assoc, Nat.add_comm 1]

theorem codeOf_element (el : Element) : codeOf s [el] = el.innerCode s ++ [el.lastAction] := by
  cases el with
  | literal => rw [codeOf, codeOf, Element.code]; rfl
  | operator op => exact codeOf_operator s op
  | access a => exact codeOf_access s a
  | call c => rw [codeOf_call, Call.code_eq]; rfl

theorem infix_codeOf {es : List Element} {el : Element} (hel : el ∈ es) :
    codeOf s [el] <:+: codeOf s es := by
  obtain ⟨before, after, rfl⟩ := List.append_of_mem hel
  rw [List.append_cons, codeOf_append, codeOf_append]
  exact ⟨codeOf s before, codeOf s after, rfl⟩

/-- The action of an element, and what stands in its place where it is passed by reference. -/
def Element.ownActions : Element → List Action
  | .access a => [a.fetch, .reference a.name a.indices.length]
  | el => [el.lastAction]

section Forall

variable {s} {P : Action → Prop}

theorem forall_indexCode {indices : List Expression}
    (h : ∀ e ∈ indices, ∀ a ∈ codeOf s e.elements, P a) : ∀ a ∈ indexCode s indices, P a := by
  rw [indexCode_eq]
  intro a ha
  obtain ⟨e, he, hmem⟩ := List.mem_flatMap.1 ha
  rw [Expression.code_eq] at hmem
  exact h e he a hmem

theorem forall_argumentOf {module : String} {i : Nat} {e : Expression}
    (h : ∀ a ∈ codeOf s e.elements, P a)
    (hreference : ∀ el ∈ e.elements, ∀ a ∈ el.ownActions, P a) :
    ∀ a ∈ s.argumentOf module i e, P a := by
  rw [Signatures.argumentOf]
  split
  · next v _ hv _ =>
    rw [Expression.access?_eq_some] at hv
    rw [hv] at hreference
    rw [hv, codeOf_access] at h
    have hown := hreference _ List.mem_cons_self
    exact List.forall_mem_append.2 ⟨(List.forall_mem_append.1 h).1,
      List.forall_mem_singleton.2 (hown _ (List.mem_cons_of_mem _ List.mem_cons_self))⟩
  · rw [Expression.code_eq]
    exact h

theorem forall_argumentCode {module : String} {k : Nat} {args : List Expression}
    (h : ∀ e ∈ args, ∀ a ∈ codeOf s e.elements, P a)
    (hreference : ∀ e ∈ args, ∀ el ∈ e.elements, ∀ a ∈ el.ownActions, P a) :
    ∀ a ∈ argumentCode s module k args, P a := by
  rw [argumentCode_eq]
  intro a ha
  obtain ⟨as, has, hmem⟩ := List.mem_flatten.1 ha
  obtain ⟨i, hi, rfl⟩ := List.mem_mapIdx.1 has
  have hmember := List.getElem_mem hi
  exact forall_argumentOf (h _ hmember) (hreference _ hmember) a hmem

/-- Take what elements have in common with all elements of their indices and arguments. What holds
of the own actions of all such elements holds of all actions of elements in order. -/
theorem forall_codeOf {ok : Element → Prop} (hown : ∀ el, ok el → ∀ a ∈ el.ownActions, P a)
    (hinner : ∀ el, ok el → ∀ e ∈ el.expressions, ∀ inner ∈ e.elements, ok inner)
    {es : List Element} (hpost : Postorder es) (h : ∀ el ∈ es, ok el) :
    ∀ a ∈ codeOf s es, P a := by
  induction hpost with
  | literal value =>
    rw [codeOf_element]
    exact hown _ (h _ List.mem_cons_self)
  | @access v _ ih =>
    have hv := h _ List.mem_cons_self
    rw [codeOf_access]
    exact List.forall_mem_append.2 ⟨forall_indexCode fun e he => ih e he (hinner _ hv e he),
      List.forall_mem_singleton.2 (hown _ hv _ List.mem_cons_self)⟩
  | @call c _ ih =>
    have hc := h _ List.mem_cons_self
    rw [codeOf_call, Call.code_eq]
    refine List.forall_mem_append.2 ⟨forall_argumentCode ?_ ?_, hown _ hc⟩
    · exact fun e he => ih e he (hinner _ hc e he)
    · exact fun e he el hel => hown _ (hinner _ hc e he el hel)
  | @unary op es _ _ ih =>
    obtain ⟨hes, hop⟩ := List.forall_mem_append.1 h
    rw [codeOf_append, codeOf_operator]
    exact List.forall_mem_append.2 ⟨ih hes, hown _ (hop _ List.mem_cons_self)⟩
  | @binary op ls rs _ _ _ ihl ihr =>
    obtain ⟨hes, hop⟩ := List.forall_mem_append.1 h
    obtain ⟨hls, hrs⟩ := List.forall_mem_append.1 hes
    rw [codeOf_append, codeOf_append, codeOf_operator]
    exact List.forall_mem_append.2
      ⟨List.forall_mem_append.2 ⟨ihl hls, ihr hrs⟩, hown _ (hop _ List.mem_cons_self)⟩

end Forall

/-- All of the elements have their inner actions among these, the calls all of their actions. -/
def Expression.Occurs (as : List Action) (e : Expression) : Prop :=
  ∀ el ∈ e.elements, el.innerCode s <:+: as ∧ ∀ c, el = .call c → c.code s <:+: as

variable {s}

theorem Expression.Occurs.mono {as bs : List Action} {e : Expression} (h : e.Occurs s as)
    (hab : as <:+: bs) : e.Occurs s bs := fun el hel =>
  let ⟨hinner, hcall⟩ := h el hel
  ⟨hinner.trans hab, fun c hc => (hcall c hc).trans hab⟩

theorem Expression.occurs_code (e : Expression) : e.Occurs s (e.code s) := by
  intro el hel
  have hcode : codeOf s [el] <:+: e.code s := by
    rw [Expression.code_eq]
    exact infix_codeOf s hel
  have hinner : el.innerCode s <:+: codeOf s [el] := by
    rw [codeOf_element]
    exact (List.prefix_append ..).isInfix
  refine ⟨hinner.trans hcode, fun c hc => ?_⟩
  rw [← codeOf_call, ← hc]
  exact hcode

/-- A variable passed by reference is not read, but it is no call either. -/
theorem Expression.occurs_argumentOf (module : String) (i : Nat) (e : Expression) :
    e.Occurs s (s.argumentOf module i e) := by
  rw [Signatures.argumentOf]
  split
  · next a _ ha _ =>
    rw [Expression.access?_eq_some] at ha
    intro el hel
    rw [ha, List.mem_singleton] at hel
    subst hel
    refine ⟨List.infix_append' [] _ _, fun c hc => ?_⟩
    cases hc
  · exact e.occurs_code

theorem Expression.occurs_indexCode {indices : List Expression} {e : Expression}
    (he : e ∈ indices) : e.Occurs s (indexCode s indices) := by
  rw [indexCode_eq]
  exact e.occurs_code.mono (List.infix_of_mem_flatten (List.mem_map_of_mem he))

theorem Expression.occurs_argumentCode {module : String} {k : Nat} {args : List Expression}
    {e : Expression} (he : e ∈ args) : e.Occurs s (argumentCode s module k args) := by
  obtain ⟨i, hi, rfl⟩ := List.mem_iff_getElem.1 he
  rw [argumentCode_eq]
  refine (args[i].occurs_argumentOf module (k + i)).mono (List.infix_of_mem_flatten ?_)
  exact List.mem_mapIdx.2 ⟨i, hi, rfl⟩

theorem Expression.occurs_innerCode {el : Element} {e : Expression} (he : e ∈ el.expressions) :
    e.Occurs s (el.innerCode s) := by
  cases el with
  | literal | operator => cases he
  | access a => exact Expression.occurs_indexCode he
  | call c => exact Expression.occurs_argumentCode he

theorem Expression.Part.occurs {e x : Expression} (hx : e.Part x) {as : List Action}
    (h : e.Occurs s as) : x.Occurs s as := by
  induction hx with
  | whole => exact h
  | inner _ hel hy ih => exact (Expression.occurs_innerCode hy).mono (ih _ hel).1

end Code

end Seudocodigo
