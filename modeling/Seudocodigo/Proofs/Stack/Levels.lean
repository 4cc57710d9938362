import Seudocodigo.Proofs.Flow.Lowering
import Seudocodigo.Proofs.Stack.Heights

/-! Heights of the stack given to the nodes of a graph, so that every node leaves the height that
the nodes it leads to were given. Graphs built from statements can be given such heights. -/
namespace Seudocodigo

/-- The height where a link leads to; where nothing follows the stack is empty. -/
def heightAt (heights : List Nat) : Option NodeId → Option Nat
  | none => some 0
  | some id => heights[id]?

/-- With the given height before it the node finds its operands, and it leaves the height of all
nodes that it leads to. A test begins on an empty stack and puts just the truth value there. -/
def Node.Fits (fs : List String) (heights : List Nat) (height : Nat) : Node → Prop
  | .generic a next =>
    ∃ left, a.heightAfter? fs height = some left ∧ heightAt heights next = some left
  | .branch condition trueHead falseHead next _ =>
    height = 0 ∧ heightAfter? fs condition 0 = some 1 ∧ heightAt heights trueHead = some 0 ∧
      heightAt heights falseHead = some 0 ∧ heightAt heights next = some 0
  | .loop _ condition bodyHead next _ =>
    height = 0 ∧ heightAfter? fs condition 0 = some 1 ∧ heightAt heights bodyHead = some 0 ∧
      heightAt heights next = some 0

structure Graph.Levels (fs : List String) (heights : List Nat) (g : Graph) : Prop where
  length : heights.length = g.size
  fits : ∀ {id node}, g.find? id = some node →
    ∃ height, heights[id]? = some height ∧ node.Fits fs heights height

variable {s : Signatures} {fs : List String} {heights : List Nat}

theorem getElem?_append_of_eq_some {id height : Nat} (h : heights[id]? = some height)
    (more : List Nat) : (heights ++ more)[id]? = some height := by
  rw [List.getElem?_append_left (List.getElem?_eq_some_iff.1 h).1, h]

theorem heightAt_append {to? : Option NodeId} {height : Nat}
    (h : heightAt heights to? = some height) (more : List Nat) :
    heightAt (heights ++ more) to? = some height := by
  cases to? with
  | none => exact h
  | some id => exact getElem?_append_of_eq_some h more

namespace Node.Fits

variable {node : Node} {height : Nat}

theorem append (h : node.Fits fs heights height) (more : List Nat) :
    node.Fits fs (heights ++ more) height := by
  cases node with
  | generic a next =>
    obtain ⟨left, ha, hnext⟩ := h
    exact ⟨left, ha, heightAt_append hnext more⟩
  | branch =>
    obtain ⟨hheight, hcondition, htrue, hfalse, hnext⟩ := h
    exact ⟨hheight, hcondition, heightAt_append htrue more, heightAt_append hfalse more,
      heightAt_append hnext more⟩
  | loop =>
    obtain ⟨hheight, hcondition, hbody, hnext⟩ := h
    exact ⟨hheight, hcondition, heightAt_append hbody more, heightAt_append hnext more⟩

/-- A link that leads to an empty stack can lead to another node where the stack is empty. -/
theorem setLink (h : node.Fits fs heights height) {link : Link} {target : NodeId}
    (hlink : ∀ to?, node.link? link = some to? → heightAt heights to? = some 0)
    (htarget : heights[target]? = some 0) : (node.setLink target link).Fits fs heights height := by
  cases node with
  | generic a next =>
    cases link with
    | next =>
      obtain ⟨left, ha, hnext⟩ := h
      rw [hlink next rfl] at hnext
      exact ⟨left, ha, htarget.trans hnext⟩
    | _ => exact h
  | branch =>
    obtain ⟨hheight, hcondition, htrue, hfalse, hnext⟩ := h
    cases link with
    | next => exact ⟨hheight, hcondition, htrue, hfalse, htarget⟩
    | trueHead => exact ⟨hheight, hcondition, htarget, hfalse, hnext⟩
    | falseHead => exact ⟨hheight, hcondition, htrue, htarget, hnext⟩
    | bodyHead => exact ⟨hheight, hcondition, htrue, hfalse, hnext⟩
  | loop =>
    obtain ⟨hheight, hcondition, hbody, hnext⟩ := h
    cases link with
    | next => exact ⟨hheight, hcondition, hbody, htarget⟩
    | bodyHead => exact ⟨hheight, hcondition, htarget, hnext⟩
    | _ => exact ⟨hheight, hcondition, hbody, hnext⟩

end Node.Fits

namespace Graph.Levels

variable {g : Graph} {target : NodeId}

theorem empty : Graph.empty.Levels fs [] := ⟨rfl, nofun⟩

theorem add (h : g.Levels fs heights) {node : Node} {height : Nat}
    (hnode : node.Fits fs (heights ++ [height]) height) :
    (g.add node).2.Levels fs (heights ++ [height]) where
  length := by rw [size_add, List.length_append, h.length, List.length_singleton]
  fits {id other} hid := by
    rw [find?_add] at hid
    by_cases hsize : id = g.size
    · rw [if_pos hsize] at hid
      cases hid
      refine ⟨height, ?_, hnode⟩
      rw [hsize, ← h.length, List.getElem?_concat_length]
    · rw [if_neg hsize] at hid
      obtain ⟨height', hheight, hfits⟩ := h.fits hid
      exact ⟨height', getElem?_append_of_eq_some hheight _, hfits.append _⟩

theorem fill (h : g.Levels fs heights) {slot : Slot}
    (hslot : ∀ to?, g.link? slot = some to? → heightAt heights to? = some 0)
    (htarget : heights[target]? = some 0) : (g.fill target slot).Levels fs heights where
  length := by rw [h.length, Graph.fill, size_modify]
  fits {id node} hid := by
    rw [Graph.fill, find?_modify] at hid
    by_cases hslot' : slot.node = id
    · rw [if_pos hslot'] at hid
      obtain ⟨before, hbefore, rfl⟩ := Option.map_eq_some_iff.1 hid
      obtain ⟨height, hheight, hfits⟩ := h.fits hbefore
      refine ⟨height, hheight, hfits.setLink (fun to? hto => hslot to? ?_) htarget⟩
      rw [link?, hslot', hbefore]
      exact hto
    · rw [if_neg hslot'] at hid
      exact h.fits hid

theorem fillAll (h : g.Levels fs heights) {slots : List Slot}
    (hslots : ∀ slot ∈ slots, ∀ to?, g.link? slot = some to? → heightAt heights to? = some 0)
    (htarget : heights[target]? = some 0) : (g.fillAll target slots).Levels fs heights := by
  induction slots generalizing g with
  | nil => exact h
  | cons slot slots ih =>
    rw [List.forall_mem_cons] at hslots
    refine ih (h.fill hslots.1 htarget) fun other hother to? hto => ?_
    rw [link?_fill] at hto
    by_cases hsame : slot = other
    · rw [if_pos hsame] at hto
      obtain ⟨-, -, rfl⟩ := Option.map_eq_some_iff.1 hto
      exact htarget
    · rw [if_neg hsame] at hto
      exact hslots.2 other hother to? hto

end Graph.Levels

/-- Up to any place actions can be carried out that can be carried out to their end. -/
theorem heightAfter?_take {as : List Action} {height last : Nat}
    (h : heightAfter? fs as height = some last) (n : Nat) :
    ∃ between, heightAfter? fs (as.take n) height = some between := by
  rw [← List.take_append_drop n as, heightAfter?_append] at h
  obtain ⟨between, hbetween, -⟩ := Option.bind_eq_some_iff.1 h
  exact ⟨between, hbetween⟩

theorem heightAfter?_take_succ {as : List Action} {i : Nat} {a : Action} (ha : as[i]? = some a)
    (height : Nat) :
    heightAfter? fs (as.take (i + 1)) height =
      (heightAfter? fs (as.take i) height).bind (Action.heightAfter? fs a) := by
  rw [List.take_add_one, ha, heightAfter?_append]
  exact Option.bind_congr fun _ _ => heightAfter?_singleton a _

def heightsBefore (fs : List String) (as : List Action) : List Nat :=
  (List.range as.length).map fun i => ((heightAfter? fs (as.take i) 0).getD 0)

theorem length_heightsBefore (as : List Action) : (heightsBefore fs as).length = as.length := by
  rw [heightsBefore, List.length_map, List.length_range]

theorem getElem?_heightsBefore {as : List Action} (h : heightAfter? fs as 0 = some 0) {i : Nat}
    (hi : i < as.length) : (heightsBefore fs as)[i]? = heightAfter? fs (as.take i) 0 := by
  obtain ⟨between, hbetween⟩ := heightAfter?_take h i
  rw [heightsBefore, List.getElem?_map, List.getElem?_range hi, hbetween, Option.map_some,
    hbetween]
  rfl

theorem getElem?_append_heightsBefore {as : List Action} (h : heightAfter? fs as 0 = some 0)
    {i : Nat} (hi : i < as.length) :
    (heights ++ heightsBefore fs as)[heights.length + i]? = heightAfter? fs (as.take i) 0 := by
  rw [List.getElem?_append_right (Nat.le_add_right _ _), Nat.add_sub_cancel_left,
    getElem?_heightsBefore h hi]

/-- A node for one of the actions that leads to the one for the next. -/
theorem fits_generic {as : List Action} (h : heightAfter? fs as 0 = some 0) {i : Nat} {a : Action}
    (ha : as[i]? = some a) :
    ∃ height, (heights ++ heightsBefore fs as)[heights.length + i]? = some height ∧
      (Node.generic a (if i + 1 < as.length then some (heights.length + i + 1) else none)).Fits fs
        (heights ++ heightsBefore fs as) height := by
  have hi : i < as.length := (List.getElem?_eq_some_iff.1 ha).1
  obtain ⟨before, hbefore⟩ := heightAfter?_take h i
  obtain ⟨left, hleft⟩ := heightAfter?_take h (i + 1)
  have hstep : heightAfter? fs (as.take (i + 1)) 0 = _ := heightAfter?_take_succ ha 0
  rw [hleft, hbefore, Option.bind_some] at hstep
  refine ⟨before, by rw [getElem?_append_heightsBefore h hi, hbefore], left, hstep.symm, ?_⟩
  by_cases hlast : i + 1 < as.length
  · rw [if_pos hlast, heightAt, Nat.add_assoc, getElem?_append_heightsBefore h hlast, hleft]
  · rw [if_neg hlast, ← hleft, List.take_of_length_le (Nat.not_lt.1 hlast)]
    exact h.symm

namespace Build

open Builder Seudocodigo.Graph

/-- What is built can be given heights as well, with an empty stack before it and at its first
statements. -/
def Keeps (fs : List String) (m : Build Chain) (firsts : Graph → List NodeId) : Prop :=
  ∀ (g : Graph) (heights : List Nat), g.Levels fs heights → ∃ more,
    (m g).2.Levels fs (heights ++ more) ∧ heightAt (heights ++ more) (m g).1.head = some 0 ∧
      ∀ id ∈ firsts g, (heights ++ more)[id]? = some 0

variable {m n : Build Chain} {p q : Segment} {firsts seconds : Graph → List NodeId}

theorem Keeps.empty : Keeps fs (pure .empty) fun _ => [] := fun g heights hg =>
  ⟨[], by rw [List.append_nil]; exact hg, rfl, by simp⟩

theorem Keeps.straight {as : List Action} (h : Adds fs 0 as) :
    Keeps fs (straight as) fun _ => [] := by
  intro g heights hg
  obtain ⟨hhead, hsize, hnodes⟩ := find?_straight as g
  obtain ⟨hframe, -⟩ := Lowers.straight as g
  rw [← hg.length] at hhead hsize hnodes hframe
  refine ⟨heightsBefore fs as, ⟨?_, fun {id node} hid => ?_⟩, ?_, by simp⟩
  · rw [hsize, List.length_append, length_heightsBefore]
  · by_cases hold : id < heights.length
    · rw [hframe id hold] at hid
      obtain ⟨height, hheight, hfits⟩ := hg.fits hid
      exact ⟨height, getElem?_append_of_eq_some hheight _, hfits.append _⟩
    · obtain ⟨i, rfl⟩ := Nat.exists_eq_add_of_le (Nat.not_lt.1 hold)
      have hlt := lt_size_of_find? hid
      rw [hsize] at hlt
      have ha := List.getElem?_eq_getElem (Nat.lt_of_add_lt_add_left hlt)
      rw [hnodes i _ ha] at hid
      cases hid
      exact fits_generic (h 0) ha
  · rw [hhead]
    by_cases hnil : as = []
    · rw [if_pos hnil]
      rfl
    · rw [if_neg hnil]
      exact getElem?_append_heightsBefore (h 0) (List.length_pos_iff.2 hnil)

theorem Keeps.join (hkm : Keeps fs m firsts) (hm : Lowers m p) (hn : Lowers n q)
    (hkn : Keeps fs n seconds) :
    Keeps fs (do
      let first ← m
      let rest ← n
      Builder.join first rest) fun g => firsts g ++ seconds (m g).2 := by
  intro g heights hg
  obtain ⟨more, hlevels, hhead, hfirsts⟩ := hkm g heights hg
  obtain ⟨others, hlevels', hhead', hseconds⟩ := hkn (m g).2 _ hlevels
  obtain ⟨-, hlowered⟩ := hm g
  obtain ⟨hframe, -⟩ := hn (m g).2
  refine ⟨more ++ others, ?_⟩
  rw [← List.append_assoc]
  have hfirsts' : ∀ id ∈ firsts g ++ seconds (m g).2,
      (heights ++ more ++ others)[id]? = some 0 := by
    refine List.forall_mem_append.2 ⟨fun id hid => ?_, hseconds⟩
    exact getElem?_append_of_eq_some (hfirsts id hid) others
  have hopen : ∀ slot ∈ (m g).1.exits, ∀ to?, (n (m g).2).2.link? slot = some to? →
      heightAt (heights ++ more ++ others) to? = some 0 := by
    intro slot hslot to? hto
    rw [(hlowered.exits_kept hframe hslot).2.2] at hto
    cases hto
    rfl
  rw [run_bind_join, Graph.join]
  cases htarget : (n (m g).2).1.head with
  | none => exact ⟨hlevels', heightAt_append hhead others, hfirsts'⟩
  | some target =>
    by_cases hempty : (m g).1.isEmpty = true
    · simp only [hempty, if_true]
      exact ⟨hlevels', hhead', hfirsts'⟩
    · simp only [hempty]
      rw [htarget] at hhead'
      exact ⟨hlevels'.fillAll hopen hhead', heightAt_append hhead others, hfirsts'⟩

section Tests

variable {condition : List Action} (hc : heightAfter? fs condition 0 = some 1)
include hc

theorem Keeps.branch (hkm : Keeps fs m firsts) (hkn : Keeps fs n seconds) :
    Keeps fs (do
      let thenChain ← m
      let elseChain ← n
      Builder.branch condition thenChain elseChain) fun g => firsts g ++ seconds (m g).2 := by
  intro g heights hg
  obtain ⟨more, hlevels, hhead, hfirsts⟩ := hkm g heights hg
  obtain ⟨others, hlevels', hhead', hseconds⟩ := hkn (m g).2 _ hlevels
  refine ⟨more ++ (others ++ [0]), ?_⟩
  rw [← List.append_assoc, ← List.append_assoc]
  refine ⟨hlevels'.add ⟨rfl, hc, ?_, ?_, rfl⟩, ?_, ?_⟩
  · exact heightAt_append (heightAt_append hhead others) [0]
  · exact heightAt_append hhead' [0]
  · show (heights ++ more ++ others ++ [0])[(n (m g).2).2.size]? = some 0
    rw [← hlevels'.length]
    exact List.getElem?_concat_length
  · refine List.forall_mem_append.2 ⟨fun id hid => ?_, fun id hid => ?_⟩
    · exact getElem?_append_of_eq_some (getElem?_append_of_eq_some (hfirsts id hid) others) [0]
    · exact getElem?_append_of_eq_some (hseconds id hid) [0]

theorem Keeps.loop (hm : Lowers m p) (hkm : Keeps fs m firsts) (kind : LoopKind) :
    Keeps fs (do
      let body ← m
      Builder.loop kind condition body) firsts := by
  intro g heights hg
  obtain ⟨more, hlevels, hhead, hfirsts⟩ := hkm g heights hg
  obtain ⟨-, hlowered⟩ := hm g
  have hself : (heights ++ more ++ [0])[(m g).2.size]? = some 0 := by
    rw [← hlevels.length]
    exact List.getElem?_concat_length
  have hfits : (Node.loop kind condition (m g).1.head none .programBody).Fits fs
      (heights ++ more ++ [0]) 0 := ⟨rfl, hc, heightAt_append hhead [0], rfl⟩
  refine ⟨more ++ [0], ?_⟩
  rw [← List.append_assoc]
  refine ⟨(hlevels.add hfits).fillAll (fun slot hslot to? hto => ?_) hself, ?_, fun id hid => ?_⟩
  · obtain ⟨-, rfl⟩ | ⟨-, hslot⟩ := mem_exitsOr.1 hslot
    · change ((m g).2.add _).2.link? ⟨(m g).2.size, .bodyHead⟩ = _ at hto
      rw [link?_add_self] at hto
      cases hto
      exact heightAt_append hhead [0]
    · obtain ⟨-, hopen⟩ := hlowered.exits slot hslot
      rw [link?_add_lt _ _ (lt_size_of_link? hopen), hopen] at hto
      cases hto
      rfl
  · cases kind with
    | whileLoop => exact hself
    | untilLoop =>
      let built := (Builder.loop .untilLoop condition (m g).1 : Build Chain) (m g).2
      have hbody : built.1.head = some ((m g).1.head.getD (m g).2.size) := rfl
      show heightAt _ built.1.head = _
      rw [hbody]
      cases hfirst : (m g).1.head with
      | none => exact hself
      | some head =>
        rw [hfirst] at hhead
        exact heightAt_append hhead [0]
  · exact getElem?_append_of_eq_some (hfirsts id hid) [0]

end Tests

/-- The first node of what is built can be counted among those of its statements. -/
theorem Keeps.head (h : Keeps fs m firsts) :
    Keeps fs m fun g => (m g).1.head.toList ++ firsts g := by
  intro g heights hg
  obtain ⟨more, hlevels, hhead, hfirsts⟩ := h g heights hg
  refine ⟨more, hlevels, hhead, List.forall_mem_append.2 ⟨fun id hid => ?_, hfirsts⟩⟩
  rw [Option.mem_toList.1 hid] at hhead
  exact hhead

end Build

mutual

def Statement.innerHeads (s : Signatures) (g : Graph) : Statement → List NodeId
  | .declaration .. | .assignment _ | .call _ | .result .. => []
  | .conditional _ thenBranch elseBranch _ =>
    headsOf s g thenBranch ++ headsOf s ((flowOf s thenBranch : Build Chain) g).2 elseBranch
  | .whileLoop _ body _ => headsOf s g body
  | .untilLoop body _ _ => headsOf s g body
  | .counting ⟨start, bound, body, p⟩ =>
    let l : CountingLoop := ⟨start, bound, body, p⟩
    let first : Build Chain := Builder.straight (start.code s)
    let turn : Build Chain := flowOf s body
    let step : Build Chain := Builder.straight (l.increment.code s)
    let started := (first g).2
    headsOf s started body ++ (step (turn started).2).1.head.toList

def headsOf (s : Signatures) (g : Graph) : List Statement → List NodeId
  | [] => []
  | st :: sts =>
    let first : Build Chain := st.flow s
    (first g).1.head.toList ++ st.innerHeads s g ++ headsOf s (first g).2 sts

end

namespace Build

mutual

theorem keeps_flow (hs : s.YieldsFor fs) (st : Statement) (h : ∀ e ∈ st.expressions, e.Usable s) :
    Keeps fs (st.flow s) fun g => st.innerHeads s g := by
  cases st with
  | declaration =>
    simp only [Statement.flow, Statement.innerHeads]
    exact .empty
  | assignment a =>
    simp only [Statement.flow, Statement.innerHeads]
    exact .straight (adds_assignment hs h)
  | call c =>
    simp only [Statement.flow, Statement.innerHeads]
    exact .straight (adds_statementCode hs h)
  | result value =>
    simp only [Statement.flow, Statement.innerHeads]
    exact .straight (adds_result hs (h value (by simp [Statement.expressions])))
  | conditional condition thenBranch elseBranch _ =>
    rw [Statement.expressions, List.forall_mem_append, List.forall_mem_cons] at h
    simp only [Statement.flow, Statement.innerHeads]
    exact .branch (h.1.1.adds hs 0) (keeps_flowOf hs thenBranch h.1.2)
      (keeps_flowOf hs elseBranch h.2)
  | whileLoop condition body _ =>
    rw [Statement.expressions, List.forall_mem_cons] at h
    simp only [Statement.flow, Statement.innerHeads]
    exact .loop (h.1.adds hs 0) (lowers_flowOf s body) (keeps_flowOf hs body h.2) _
  | untilLoop body condition _ =>
    rw [Statement.expressions, List.forall_mem_cons] at h
    simp only [Statement.flow, Statement.innerHeads]
    exact .loop (adds_negated hs h.1 0) (lowers_flowOf s body) (keeps_flowOf hs body h.2) _
  | counting l =>
    obtain ⟨start, bound, body, p⟩ := l
    let l : CountingLoop := ⟨start, bound, body, p⟩
    rw [Statement.expressions, List.forall_mem_append, List.forall_mem_cons] at h
    obtain ⟨⟨hbound, hstart⟩, hbody⟩ := h
    have htarget : ∀ e ∈ l.start.target.indices, e.Usable s := (List.forall_mem_cons.1 hstart).2
    have hcondition := (CountingLoop.usable_condition htarget hbound).adds hs 0
    have hstep := (Keeps.straight (adds_assignment hs (l.usable_increment htarget))).head
    have hlowers := (lowers_flowOf s body).join (.straight (l.increment.code s))
    have hturn := (keeps_flowOf hs body hbody).join (lowers_flowOf s body) (.straight _) hstep
    have hloop := Keeps.loop hcondition hlowers hturn .whileLoop
    have hall := (Keeps.straight (adds_assignment hs hstart)).join (.straight _)
      (hlowers.whileLoop (l.condition.code s)) hloop
    simp only [Statement.flow, Statement.innerHeads]
    simp only [bind_assoc, List.nil_append, List.append_nil] at hall
    exact hall

theorem keeps_flowOf (hs : s.YieldsFor fs) (ss : List Statement)
    (h : ∀ e ∈ expressionsOf ss, e.Usable s) :
    Keeps fs (flowOf s ss) fun g => headsOf s g ss := by
  cases ss with
  | nil =>
    simp only [flowOf, headsOf]
    exact .empty
  | cons st sts =>
    rw [expressionsOf, List.forall_mem_append] at h
    simp only [flowOf, headsOf]
    exact (keeps_flow hs st h.1).head.join (lowers_flow s st) (lowers_flowOf s sts)
      (keeps_flowOf hs sts h.2)

end

end Build

end Seudocodigo
