import Mathlib.Data.List.Nodup
import Mathlib.Data.List.Perm.Basic
import Seudocodigo.Module.Flow
import Seudocodigo.Module.Typing
import Seudocodigo.Proofs.Grammar.Program
import Seudocodigo.Proofs.Stack.Soundness

/-! The order of the modules of a text does not matter: not for whether it is a program, not for
what the checker says of it, and not for what it is compiled to. -/
namespace Seudocodigo

namespace NameMap

variable {α : Type}

theorem mem_iff_find? {es : List (String × α)} (h : es.Pairwise (·.1 < ·.1)) {name : String}
    {a : α} : (name, a) ∈ es ↔ (es.find? (·.1 = name)).map (·.2) = some a := by
  induction es with
  | nil => simp
  | cons e es ih =>
    obtain ⟨hfirst, hrest⟩ := List.pairwise_cons.1 h
    by_cases hname : e.1 = name
    · have hnot : (name, a) ∉ es := fun hmem =>
        String.lt_irrefl _ (hname ▸ hfirst (name, a) hmem)
      obtain ⟨key, b⟩ := e
      simpa [hnot, show key = name from hname] using eq_comm
    · have hne : (name, a) ≠ e := fun he => hname (he ▸ rfl)
      rw [List.mem_cons, or_iff_right hne, ih hrest, List.find?_cons, decide_eq_false hname]

/-- The entries are in order, so what the map says of each name is all there is to it. -/
theorem eq_of_find? {m n : NameMap α} (h : ∀ name, m.find? name = n.find? name) : m = n := by
  have hnodup (m : NameMap α) : m.entries.Nodup := by
    refine m.ascending.imp fun {e f} hlt he => ?_
    rw [he] at hlt
    exact String.lt_irrefl _ hlt
  have hperm : m.entries.Perm n.entries :=
    (List.perm_ext_iff_of_nodup (hnodup m) (hnodup n)).2 fun ⟨name, a⟩ => by
      rw [mem_iff_find? m.ascending, mem_iff_find? n.ascending]
      exact iff_of_eq (congrArg (· = some a) (h name))
  have hentries : m.entries = n.entries :=
    hperm.eq_of_pairwise (fun _ _ _ _ hab hba => absurd hba (String.lt_asymm hab))
      m.ascending n.ascending
  cases m
  cases n
  cases hentries
  rfl

theorem insert_comm (m : NameMap α) {name key : String} (h : name ≠ key) (a b : α) :
    (m.insert name a).insert key b = (m.insert key b).insert name a := by
  refine eq_of_find? fun other => ?_
  simp only [find?_insert]
  by_cases hname : name = other
  · have hkey : key ≠ other := fun hk => h (hname.trans hk.symm)
    simp [hname, hkey]
  · simp [hname]

/-- Of entries with distinct names the order does not matter. -/
theorem ofList_perm {es fs : List (String × α)} (hd : (es.map (·.1)).Nodup) (h : es.Perm fs) :
    ofList es = ofList fs := by
  refine h.foldl_eq' (fun e he f hf m => ?_) empty
  by_cases hname : e.1 = f.1
  · rw [List.inj_on_of_nodup_map hd he hf hname]
  · exact m.insert_comm hname e.2 f.2

end NameMap

def Module.Whole (ts : List Token) : Prop :=
  ∃ m d, Module.parse.outcome (.ofTokens ts) = (.ok m, d) ∧ (Cursor.ofTokens ts).Passes ts d

inductive Joined : List (List Token) → List Token → Prop where
  | nil : Joined [] []
  | one (b : List Token) : Joined [b] b
  | more {b c ns ts : List Token} {bs : List (List Token)} :
    LineEnds ns → Joined (c :: bs) ts → Joined (b :: c :: bs) (b ++ ns ++ ts)

theorem Module.Whole.spelled {ts : List Token} (h : Module.Whole ts) :
    ∃ m, Module.Spelled ts m := by
  obtain ⟨m, d, hm, ht⟩ := h
  obtain ⟨us, hu, hm⟩ := Module.reads_parse.sound hm
  cases (List.append_cancel_right (hu.1.symm.trans ht.1) : us = ts)
  exact ⟨m, hm⟩

theorem Module.exists_spelled {bs : List (List Token)} (h : ∀ b ∈ bs, Module.Whole b) :
    ∃ ms, List.Forall₂ Module.Spelled bs ms := by
  induction bs with
  | nil => exact ⟨[], .nil⟩
  | cons b bs ih =>
    obtain ⟨m, hm⟩ := (h b List.mem_cons_self).spelled
    obtain ⟨ms, hms⟩ := ih fun c hc => h c (List.mem_cons_of_mem _ hc)
    exact ⟨m :: ms, .cons hm hms⟩

theorem Joined.followers {b ts : List Token} {bs : List (List Token)} {ms : List Module}
    (h : Joined (b :: bs) ts) (hall : List.Forall₂ Module.Spelled bs ms) :
    ∃ us, ts = b ++ us ∧ Module.Followers us ms := by
  induction hall generalizing b ts with
  | nil =>
    cases h
    exact ⟨[], (List.append_nil _).symm, .nil⟩
  | cons hm _ ih =>
    cases h with
    | more hns hjoin =>
      obtain ⟨us, rfl, hus⟩ := ih hjoin
      exact ⟨_, by rw [List.append_assoc, List.append_assoc], .cons hns hm hus⟩

namespace Program

open Parse

variable {p q : Program} {ms ns : List Module}

/-- Behind a module the others are read with what there is then room for. -/
theorem exists_addModule_of_modulesWithin {n : Nat} {c d e : Cursor} {ts : List Token} {m : Module}
    {main : Option Module} {subprograms : List Module} (hm : Module.Spelled ts m)
    (hl : lineEnd.outcome c = (.ok (), d))
    (h : (modulesWithin n main subprograms).outcome (.before ts c) = (.ok p, e)) :
    ∃ k r, addModule (Cursor.before ts c).current m main subprograms = .ok r ∧
      (modulesWithin k r.1 r.2).outcome d = (.ok p, e) := by
  cases n with
  | zero => cases h
  | succ k =>
    have hend : (Cursor.before ts c).atEnd = false := by
      obtain ⟨t, us, rfl, -, ht⟩ := hm.begins
      exact decide_eq_false ht
    simp only [modulesWithin, outcome_cursor_bind, hend, Bool.false_eq_true, if_false] at h
    rw [outcome_bind_of_ok (Module.reads_parse.complete hm trivial), outcome_bind_of_ok hl,
      outcome_lift_bind] at h
    cases hr : addModule (Cursor.before ts c).current m main subprograms with
    | error _ => rw [hr] at h; cases h
    | ok r => rw [hr] at h; exact ⟨k, r, rfl, h⟩

/-- What is read of modules up to the end of the file is what they make up. -/
theorem completes_of_modulesWithin {n : Nat} {d e : Cursor} {ts us : List Token} {m : Module}
    {main : Option Module} {subprograms : List Module} (hn : NamesFree subprograms)
    (hm : Module.Spelled ts m) (hf : Module.Followers us ms) (hd : d.atEnd = true)
    (h : (modulesWithin n main subprograms).outcome (.before ts (.before us d)) = (.ok p, e)) :
    Completes main subprograms (m :: ms) p := by
  induction hf generalizing n main subprograms m ts with
  | nil =>
    have hl : lineEnd.outcome d = (.ok (), d) := by simp [lineEnd, hd]
    obtain ⟨k, r, hr, h⟩ := exists_addModule_of_modulesWithin hm hl h
    refine (completes_cons _ hn).2 ⟨r, hr, ?_⟩
    cases k with
    | zero => cases h
    | succ k =>
      obtain ⟨main, subprograms⟩ := r
      simp only [modulesWithin, outcome_cursor_bind, hd, if_true] at h
      cases main with
      | none => cases h
      | some main =>
        cases h
        exact ⟨rfl, List.append_nil _, ((addModule_eq_ok hn).1 hr).2.2⟩
  | @cons ns ts' us _ _ hns hm' _ ih =>
    have hcur : (Cursor.before ts' (.before us d)).current.kind ≠ .endOfLine := by
      obtain ⟨t, vs, rfl, ht, -⟩ := hm'.begins
      exact ht
    simp only [Cursor.before_append] at h
    obtain ⟨k, r, hr, h⟩ := exists_addModule_of_modulesWithin hm (lineEnd_before hns hcur) h
    exact (completes_cons _ hn).2 ⟨r, hr, ih ((addModule_eq_ok hn).1 hr).2.2 hm' h⟩

theorem completes_of_ofTokens {bs : List (List Token)} {ts : List Token} {t : Token}
    (hall : List.Forall₂ Module.Spelled bs ms) (hts : Joined bs ts) (ht : t.kind = .endOfFile)
    (h : ofTokens (ts ++ [t]) = .ok p) : Completes none [] ms p := by
  have hend : (Cursor.ofTokens [t]).atEnd = true := decide_eq_true ht
  rw [ofTokens, Cursor.ofTokens_append ht] at h
  cases hout : Program.parse.outcome (.before ts (.ofTokens [t])) with
  | mk result e =>
    rw [hout] at h
    cases h
    rw [Program.parse, outcome_skipLineEnds_bind, outcome_budget_bind] at hout
    cases hall with
    | nil =>
      cases hts
      rw [Cursor.before_nil, Cursor.skipLineEnds_of_kind (by simp [Cursor.ofTokens, ht])] at hout
      simp only [modulesWithin, outcome_cursor_bind, hend, if_true] at hout
      cases hout
    | cons hm hall =>
      obtain ⟨us, rfl, hf⟩ := hts.followers hall
      rw [Cursor.before_append, Cursor.skipLineEnds_of_kind ?_] at hout
      · exact completes_of_modulesWithin namesFree_nil hm hf hend hout
      · obtain ⟨t, us, rfl, ht, -⟩ := hm.begins
        exact ht

theorem spelled_of_completes {bs : List (List Token)} {ts : List Token}
    (hall : List.Forall₂ Module.Spelled bs ms) (hts : Joined bs ts)
    (h : Completes none [] ms p) : Spelled ts p := by
  obtain ⟨hmain, hsub, hfree⟩ := h
  cases hall with
  | nil => cases hmain
  | cons hm hall =>
    obtain ⟨us, rfl, hf⟩ := hts.followers hall
    have hblank : ∀ t ∈ ([] : List Token), t.kind = .endOfLine := by simp
    simpa using Spelled.mk hblank hm hf hblank hmain hsub hfree

/-- Joined modules are a program if they make one up, and then it is that program. -/
theorem ofTokens_joined {bs : List (List Token)} {ts : List Token} {t : Token}
    (hall : List.Forall₂ Module.Spelled bs ms) (hts : Joined bs ts) (ht : t.kind = .endOfFile) :
    ofTokens (ts ++ [t]) = .ok p ↔ Completes none [] ms p :=
  ⟨completes_of_ofTokens hall hts ht, fun h => (spelled_of_completes hall hts h).ofTokens ht⟩

/-- What modules make up is up to their order but for the main module. -/
theorem Completes.perm (hperm : ms.Perm ns) (h : Completes none [] ms p) :
    ∃ q, Completes none [] ns q := by
  have hmain : (ns.filter (·.kind = .main)) = [p.main] :=
    List.perm_singleton.1 (h.main ▸ (hperm.filter _).symm)
  have hsub : (ns.filter (·.kind ≠ .main)).Perm p.subprograms := by
    rw [← h.subprograms]
    exact (hperm.filter _).symm
  refine ⟨⟨p.main, ns.filter (·.kind ≠ .main)⟩, hmain, rfl, ?_, fun m hm => ?_⟩
  · exact (hsub.map _).nodup_iff.2 h.free.distinct
  · exact h.free.free m (hsub.mem_iff.1 hm)

theorem Completes.unique (hperm : ms.Perm ns) (hp : Completes none [] ms p)
    (hq : Completes none [] ns q) : p.main = q.main ∧ p.subprograms.Perm q.subprograms := by
  constructor
  · have hmain := hperm.filter (·.kind = .main)
    have hboth : [p.main].Perm [q.main] := by
      rw [← hp.main, ← hq.main]
      exact hmain
    exact (List.cons.inj (List.perm_singleton.1 hboth)).1
  · rw [← hp.subprograms, ← hq.subprograms]
    exact hperm.filter _

/-- Of modules with distinct names the order does not matter to what is known by name. -/
theorem ofList_modules {α : Type} (f : Module → α) (hd : (ms.map (·.name)).Nodup)
    (hperm : ms.Perm ns) :
    NameMap.ofList (ms.map fun m => (m.name, f m)) =
      NameMap.ofList (ns.map fun m => (m.name, f m)) := by
  refine NameMap.ofList_perm ?_ (hperm.map _)
  rw [List.map_map]
  exact hd

theorem signatures_perm (hd : (p.subprograms.map (·.name)).Nodup)
    (hperm : p.subprograms.Perm q.subprograms) : p.signatures = q.signatures :=
  ofList_modules Module.signature hd hperm

theorem flow_perm (hd : (p.subprograms.map (·.name)).Nodup) (hmain : p.main = q.main)
    (hperm : p.subprograms.Perm q.subprograms) : p.flow = q.flow := by
  rw [flow, flow, hmain, signatures_perm hd hperm]
  exact congrArg _ (ofList_modules _ hd hperm)

end Program

def Module.reports (m : Module) (s : Signatures) : List Report :=
  [m.hoisted.report s].filter (!·.errors.isEmpty)

theorem Module.module_of_mem_reports {m : Module} {s : Signatures} {r : Report}
    (h : r ∈ m.reports s) : r.module = m.name := by
  cases List.mem_singleton.1 (List.mem_of_mem_filter h)
  rfl

namespace Program

variable {p q : Program}

theorem reports_eq (p : Program) :
    p.reports = p.main.reports p.signatures ++ p.subprograms.flatMap (·.reports p.signatures) := by
  have h (ms : List Module) : ((ms.map Module.hoisted).map (·.report p.signatures)).filter
      (!·.errors.isEmpty) = ms.flatMap (·.reports p.signatures) := by
    induction ms with
    | nil => rfl
    | cons m ms ih =>
      rw [List.flatMap_cons, ← ih]
      exact List.filter_append [m.hoisted.report p.signatures] _
  rw [reports, hoisted, h]
  rfl

/-- The order of modules in a text does not matter. Permuted modules are a program or they are not,
and then all that the subprograms differ in is their order: the signatures and the graphs are the
same, and so are the reports, of which that of the main module stands first. -/
theorem ofTokens_perm {bs cs : List (List Token)} {ts us : List Token} {t u : Token}
    (hbs : ∀ b ∈ bs, Module.Whole b) (hperm : bs.Perm cs) (hts : Joined bs ts)
    (hus : Joined cs us) (ht : t.kind = .endOfFile) (hu : u.kind = .endOfFile) :
    ((∃ p, ofTokens (ts ++ [t]) = .ok p) ↔ ∃ q, ofTokens (us ++ [u]) = .ok q) ∧
    ∀ p q, ofTokens (ts ++ [t]) = .ok p → ofTokens (us ++ [u]) = .ok q →
      p.main = q.main ∧ p.subprograms.Perm q.subprograms ∧
      p.signatures = q.signatures ∧
      (∃ rs ss, p.reports = p.main.reports p.signatures ++ rs ∧
        q.reports = q.main.reports q.signatures ++ ss ∧ rs.Perm ss ∧
        ∀ r ∈ rs, r.module ≠ Module.mainName) ∧
      p.flow = q.flow := by
  obtain ⟨ms, hms⟩ := Module.exists_spelled hbs
  obtain ⟨ns, hns, hmodules⟩ : ∃ ns, List.Forall₂ Module.Spelled cs ns ∧ ns.Perm ms :=
    List.perm_comp_forall₂ hperm.symm hms
  refine ⟨?_, fun p q hp hq => ?_⟩
  · simp only [ofTokens_joined hms hts ht, ofTokens_joined hns hus hu]
    exact ⟨fun ⟨_, hp⟩ => hp.perm hmodules.symm, fun ⟨_, hq⟩ => hq.perm hmodules⟩
  · rw [ofTokens_joined hms hts ht] at hp
    rw [ofTokens_joined hns hus hu] at hq
    obtain ⟨hmain, hsub⟩ := Completes.unique hmodules.symm hp hq
    have hsig := signatures_perm hp.free.distinct hsub
    refine ⟨hmain, hsub, hsig, ?_, flow_perm hp.free.distinct hmain hsub⟩
    refine ⟨_, _, p.reports_eq, q.reports_eq, ?_, fun r hr => ?_⟩
    · rw [← hsig]
      exact hsub.flatMap_right _
    · obtain ⟨m, hm, hr⟩ := List.mem_flatMap.1 hr
      rw [Module.module_of_mem_reports hr]
      exact hp.free.ne_mainName hm

def callingMain : List Token :=
  [⟨.keyword .vars, "variables", ⟨1, 1⟩⟩, ⟨.endOfLine, "\n", ⟨1, 10⟩⟩,
    ⟨.keyword .inicio, "inicio", ⟨2, 1⟩⟩, ⟨.endOfLine, "\n", ⟨2, 7⟩⟩,
    ⟨.word "p", "p", ⟨3, 1⟩⟩, ⟨.symbol .leftParen, "(", ⟨3, 2⟩⟩,
    ⟨.symbol .rightParen, ")", ⟨3, 3⟩⟩, ⟨.endOfLine, "\n", ⟨3, 4⟩⟩,
    ⟨.keyword .fin, "fin", ⟨4, 1⟩⟩]

def idleProcedure (name : String) (line : Nat) : List Token :=
  [⟨.keyword .procedimiento, "procedimiento", ⟨line, 1⟩⟩, ⟨.word name, name, ⟨line, 15⟩⟩,
    ⟨.symbol .leftParen, "(", ⟨line, 16⟩⟩, ⟨.symbol .rightParen, ")", ⟨line, 17⟩⟩,
    ⟨.endOfLine, "\n", ⟨line, 18⟩⟩, ⟨.keyword .inicio, "inicio", ⟨line + 1, 1⟩⟩,
    ⟨.endOfLine, "\n", ⟨line + 1, 7⟩⟩,
    ⟨.keyword .finprocedimiento, "finprocedimiento", ⟨line + 2, 1⟩⟩]

/-- Procedures may stand behind a call or before it. -/
theorem ofTokens_reversed :
    let ends : List Token := [⟨.endOfLine, "\n", ⟨4, 4⟩⟩]
    let file : Token := ⟨.endOfFile, "", ⟨11, 1⟩⟩
    let p := idleProcedure "p" 5
    let q := idleProcedure "q" 8
    ∃ before behind, ofTokens (p ++ ends ++ (q ++ ends ++ callingMain) ++ [file]) = .ok before ∧
      ofTokens (callingMain ++ ends ++ (q ++ ends ++ p) ++ [file]) = .ok behind ∧
      before.main = behind.main ∧ before.subprograms.Perm behind.subprograms ∧
      before.flow = behind.flow := by
  have hmain : Module.Whole callingMain := ⟨_, _, rfl, rfl, by decide⟩
  have hp : Module.Whole (idleProcedure "p" 5) := ⟨_, _, rfl, rfl, by decide⟩
  have hq : Module.Whole (idleProcedure "q" 8) := ⟨_, _, rfl, rfl, by decide⟩
  have haccepted : ∃ r, ofTokens (idleProcedure "p" 5 ++ [⟨.endOfLine, "\n", ⟨4, 4⟩⟩] ++
      (idleProcedure "q" 8 ++ [⟨.endOfLine, "\n", ⟨4, 4⟩⟩] ++ callingMain) ++
        [⟨.endOfFile, "", ⟨11, 1⟩⟩]) = .ok r := ⟨_, rfl⟩
  intro ends file p q
  have hends : LineEnds ends := ⟨by simp [ends], by simp [ends]⟩
  have hall : ∀ b ∈ [p, q, callingMain], Module.Whole b := by simp [p, q, hmain, hp, hq]
  obtain ⟨hiff, hsame⟩ := ofTokens_perm (t := file) (u := file) hall (List.reverse_perm _).symm
    (.more hends (.more hends (.one _))) (.more hends (.more hends (.one _))) rfl rfl
  obtain ⟨before, hbefore⟩ := haccepted
  obtain ⟨behind, hbehind⟩ := hiff.1 ⟨before, hbefore⟩
  obtain ⟨hmain, hsub, -, -, hflow⟩ := hsame before behind hbefore hbehind
  exact ⟨before, behind, hbefore, hbehind, hmain, hsub, hflow⟩

end Program
end Seudocodigo
