import Seudocodigo.Proofs.Grammar.Module

/-! The parser accepts a list of tokens as a program if and only if it spells the program. -/
namespace Seudocodigo

open Parse

namespace Cursor

theorem Passes.takeWhile {c d : Cursor} {ts : List Token} (h : c.Passes ts d)
    (hd : d.atEnd = true) : c.tokens.takeWhile (·.kind ≠ .endOfFile) = ts := by
  have hend : d.current.kind = .endOfFile := of_decide_eq_true hd
  rw [h.1, List.takeWhile_append_of_pos fun t ht => decide_eq_true (h.2 t ht)]
  simp [tokens, hend]

theorem exists_passes_atEnd (c : Cursor) : ∃ ts d, c.Passes ts d ∧ d.atEnd = true := by
  obtain ⟨t, ts, h⟩ := c
  induction ts generalizing t with
  | nil => exact ⟨[], _, .refl _, decide_eq_true h⟩
  | cons u us ih =>
    by_cases ht : t.kind = .endOfFile
    · exact ⟨[], _, .refl _, decide_eq_true ht⟩
    · obtain ⟨ts, d, hp, hd⟩ := ih u h
      have hfirst := Passes.advance (c := ⟨t, u :: us, h⟩) (decide_eq_false ht)
      simp only [Cursor.advance, ht, if_false] at hfirst
      exact ⟨_, d, hfirst.trans hp, hd⟩

theorem takeWhile_ofTokens (ts : List Token) :
    (ofTokens ts).tokens.takeWhile (·.kind ≠ .endOfFile) =
      ts.takeWhile (·.kind ≠ .endOfFile) := by
  cases ts with
  | nil => rfl
  | cons t ts =>
    show (t :: close t ts).takeWhile _ = _
    induction ts generalizing t with
    | nil =>
      unfold close
      split
      · rfl
      · next ht => simp [ht, Token.endOfFile]
    | cons u us ih =>
      rw [close, List.takeWhile_cons (a := t), ih, List.takeWhile_cons (a := t)]

theorem sealed_append {t : Token} (ht : t.kind = .endOfFile) (u : Token) (us : List Token) :
    Sealed u (us ++ [t]) := by
  induction us generalizing u with
  | nil => exact ht
  | cons v us ih => exact ih v

theorem ofTokens_append {t : Token} (ht : t.kind = .endOfFile) (ts : List Token) :
    ofTokens (ts ++ [t]) = before ts (ofTokens [t]) := by
  cases ts with
  | nil => rfl
  | cons u us =>
    apply tokens_injective
    rw [tokens_before, List.cons_append]
    show u :: close u (us ++ [t]) = u :: us ++ t :: close t []
    rw [close_of_sealed (sealed_append ht u us), close_of_sealed (show Sealed t [] from ht)]
    rfl

theorem tokens_ofTokens_append {t : Token} (ht : t.kind = .endOfFile) (ts : List Token) :
    (ofTokens (ts ++ [t])).tokens = ts ++ [t] := by
  rw [ofTokens_append ht, tokens_before]
  show ts ++ t :: close t [] = ts ++ [t]
  rw [close_of_sealed (show Sealed t [] from ht)]

theorem passes_lineEnds {ts : List Token} (h : ∀ t ∈ ts, t.kind = .endOfLine) (d : Cursor) :
    (before ts d).Passes ts d :=
  ⟨tokens_before ts d, fun t ht => by simp [h t ht]⟩

end Cursor

namespace Module

variable {ts : List Token}

/-- No file ends within a module. -/
theorem Spelled.passes {m : Module} (h : Spelled ts m) (d : Cursor) :
    (Cursor.before ts d).Passes ts d := by
  obtain ⟨us, hu, -⟩ := reads_parse.sound (reads_parse.complete h (d := d) trivial)
  cases (List.append_cancel_right (hu.1.symm.trans (Cursor.tokens_before ts d)) : us = ts)
  exact hu

theorem Followers.passes {ms : List Module} (h : Followers ts ms) (d : Cursor) :
    (Cursor.before ts d).Passes ts d := by
  induction h with
  | nil => exact .refl d
  | cons hns hm _ ih =>
    simp only [Cursor.before_append]
    exact ((Cursor.passes_lineEnds hns.kind _).trans (hm.passes _)).trans ih

end Module

namespace Program

variable {m : Module} {main : Option Module} {subprograms ms : List Module} {p : Program}

theorem outcome_lift_bind {α β : Type} (x : Except SyntaxError α) (f : α → Parse β) (c : Cursor) :
    ((liftM x : Parse α) >>= f).outcome c =
      match x with
      | .ok a => (f a).outcome c
      | .error e => (.error e, c) := by
  cases x <;> rfl

theorem NamesFree.of_append {ms ns : List Module} (h : NamesFree (ms ++ ns)) : NamesFree ms := by
  refine ⟨?_, fun m hm => h.free m (List.mem_append_left _ hm)⟩
  have hd := h.distinct
  rw [List.map_append] at hd
  exact (List.nodup_append.1 hd).1

theorem eq_of_toList_eq {a b : Option Module} (h : a.toList = b.toList) : a = b := by
  cases a with
  | none => cases b with
    | none => rfl
    | some _ => cases h
  | some m => cases b with
    | none => cases h
    | some _ => cases h; rfl

theorem exists_toList_of_append {ns : List Module} (h : ms ++ ns = [m]) :
    ∃ o : Option Module, o.toList = ms := by
  cases ms with
  | nil => exact ⟨none, rfl⟩
  | cons n ms =>
    have hms : ms ++ ns = [] := (List.cons.inj h).2
    rw [List.append_eq_nil_iff.1 hms |>.1]
    exact ⟨some n, rfl⟩

theorem namesFree_append_singleton :
    NamesFree (ms ++ [m]) ↔ NamesFree ms ∧
      ¬ (m.name = Module.mainName ∨ Module.isBuiltin m.name = true ∨
        ∃ n ∈ ms, n.name = m.name) := by
  constructor
  · intro h
    refine ⟨h.of_append, ?_⟩
    have hd := h.distinct
    rw [List.map_append, List.nodup_append] at hd
    obtain ⟨hmain, hbuiltin⟩ := not_mem_reserved.1 (h.free m (by simp))
    simp only [hmain, hbuiltin, Bool.false_eq_true, false_or]
    intro ⟨n, hn, he⟩
    exact hd.2.2 n.name (List.mem_map_of_mem hn) m.name (by simp) he
  · intro ⟨h, hm⟩
    simp only [not_or, Bool.not_eq_true] at hm
    obtain ⟨hmain, hbuiltin, hnew⟩ := hm
    refine ⟨?_, fun n hn => ?_⟩
    · rw [List.map_append, List.nodup_append]
      refine ⟨h.distinct, by simp, fun a ha b hb he => ?_⟩
      obtain ⟨n, hn, rfl⟩ := List.mem_map.1 ha
      cases List.mem_singleton.1 hb
      exact hnew ⟨n, hn, he⟩
    · cases List.mem_append.1 hn with
      | inl hn => exact h.free n hn
      | inr hn => cases List.mem_singleton.1 hn; exact not_mem_reserved.2 ⟨hmain, hbuiltin⟩

theorem addModule_main_eq_ok {first : Token} (hn : NamesFree subprograms) (hk : m.kind = .main)
    {main' : Option Module} {subprograms' : List Module} :
    addModule first m main subprograms = .ok (main', subprograms') ↔
      main'.toList = main.toList ++ [m] ∧ subprograms' = subprograms ∧ NamesFree subprograms' := by
  rw [addModule, if_pos hk]
  cases main with
  | some n => simp [Option.toList]; cases main' <;> simp
  | none =>
    simp only [Option.isSome_none, Bool.false_eq_true, if_false, Except.ok.injEq, Prod.mk.injEq,
      Option.toList_none, List.nil_append]
    constructor
    · intro ⟨hm, hs⟩
      subst hm hs
      exact ⟨rfl, rfl, hn⟩
    · intro ⟨hm, hs, _⟩
      cases main' with
      | none => cases hm
      | some n => cases hm; exact ⟨rfl, hs.symm⟩

theorem addModule_other_eq_ok {first : Token} (hn : NamesFree subprograms) (hk : m.kind ≠ .main)
    {main' : Option Module} {subprograms' : List Module} :
    addModule first m main subprograms = .ok (main', subprograms') ↔
      main'.toList = main.toList ∧ subprograms' = subprograms ++ [m] ∧ NamesFree subprograms' := by
  have hroom : NamesFree (subprograms ++ [m]) ↔ _ := namesFree_append_singleton
  rw [addModule, if_neg hk]
  split
  · next htaken =>
    simp only [Bool.or_eq_true, decide_eq_true_eq, List.any_eq_true, or_assoc] at htaken
    constructor
    · intro h; cases h
    · intro ⟨_, hs, hfree⟩
      rw [hs] at hfree
      exact absurd htaken (hroom.1 hfree).2
  · next hfree =>
    simp only [Bool.or_eq_true, decide_eq_true_eq, List.any_eq_true, or_assoc] at hfree
    have hadded := hroom.2 ⟨hn, hfree⟩
    constructor
    · intro h
      cases h
      exact ⟨rfl, rfl, hadded⟩
    · intro ⟨hm, hs, _⟩
      cases eq_of_toList_eq hm
      cases hs
      rfl

/-- A module goes where its kind belongs, if there is room for it. -/
theorem addModule_eq_ok {first : Token} (hn : NamesFree subprograms)
    {r : Option Module × List Module} :
    addModule first m main subprograms = .ok r ↔
      r.1.toList = main.toList ++ [m].filter (·.kind = .main) ∧
        r.2 = subprograms ++ [m].filter (·.kind ≠ .main) ∧ NamesFree r.2 := by
  obtain ⟨main', subprograms'⟩ := r
  by_cases hk : m.kind = .main
  · have hfilter : [m].filter (·.kind = .main) = [m] ∧ [m].filter (·.kind ≠ .main) = [] := by
      simp [hk]
    rw [hfilter.1, hfilter.2, List.append_nil]
    exact addModule_main_eq_ok hn hk
  · have hfilter : [m].filter (·.kind = .main) = [] ∧ [m].filter (·.kind ≠ .main) = [m] := by
      simp [hk]
    rw [hfilter.1, hfilter.2, List.append_nil]
    exact addModule_other_eq_ok hn hk

/-- What the modules of a text make of the main module and the others before them. -/
structure Completes (main : Option Module) (subprograms ms : List Module) (p : Program) :
    Prop where
  main : main.toList ++ ms.filter (·.kind = .main) = [p.main]
  subprograms : subprograms ++ ms.filter (·.kind ≠ .main) = p.subprograms
  free : NamesFree p.subprograms

theorem completes_cons (first : Token) (hn : NamesFree subprograms) :
    Completes main subprograms (m :: ms) p ↔ ∃ r : Option Module × List Module,
      addModule first m main subprograms = .ok r ∧ Completes r.1 r.2 ms p := by
  have hsplit (f : Module → Bool) : (m :: ms).filter f = [m].filter f ++ ms.filter f :=
    List.filter_append [m] ms
  constructor
  · intro ⟨hm, hs, hf⟩
    rw [hsplit, ← List.append_assoc] at hm hs
    obtain ⟨o, ho⟩ := exists_toList_of_append hm
    have hadded := (hs ▸ hf).of_append
    exact ⟨(o, subprograms ++ [m].filter (·.kind ≠ .main)),
      (addModule_eq_ok hn).2 ⟨ho, rfl, hadded⟩,
      ⟨by rw [ho]; exact hm, hs, hf⟩⟩
  · intro ⟨r, hr, ⟨hm, hs, hf⟩⟩
    obtain ⟨hmain, hsub, _⟩ := (addModule_eq_ok hn).1 hr
    refine ⟨?_, ?_, hf⟩
    · rw [hsplit, ← List.append_assoc, ← hmain]
      exact hm
    · rw [hsplit, ← List.append_assoc, ← hsub]
      exact hs

inductive Rest : List Token → List Module → Prop where
  | none : Rest [] []
  | some {ts us below : List Token} {m : Module} {ms : List Module} :
    Module.Spelled ts m → Module.Followers us ms → (∀ t ∈ below, t.kind = .endOfLine) →
    Rest (ts ++ us ++ below) (m :: ms)

/-- A module before the rest; where no line ends behind it, nothing is left. -/
theorem Rest.cons {ts ns us : List Token} (hm : Module.Spelled ts m)
    (hns : LineEnds ns ∨ ns = [] ∧ us = []) (hr : Rest us ms) :
    Rest (ts ++ ns ++ us) (m :: ms) := by
  cases hr with
  | none =>
    have hblank : ∀ t ∈ ns, t.kind = .endOfLine := by
      cases hns with
      | inl hns => exact hns.kind
      | inr hns => simp [hns.1]
    simpa using Rest.some hm .nil hblank
  | some hm' hf hb =>
    obtain ⟨t, us, rfl, -⟩ := hm'.begins
    cases hns with
    | inl hns => simpa using Rest.some hm (.cons hns hm' hf) hb
    | inr hns => simp at hns

theorem modulesWithin_sound {n : Nat} {c d : Cursor} (hcur : c.current.kind ≠ .endOfLine)
    (hn : NamesFree subprograms) (h : (modulesWithin n main subprograms).outcome c = (.ok p, d)) :
    d.atEnd = true ∧ ∃ ts ms, c.Passes ts d ∧ Rest ts ms ∧ Completes main subprograms ms p := by
  induction n generalizing c main subprograms with
  | zero => cases h
  | succ n ih =>
    simp only [modulesWithin, outcome_cursor_bind] at h
    split at h
    · next hc =>
      cases main with
      | none => cases h
      | some main =>
        cases h
        exact ⟨hc, [], [], .refl _, .none, ⟨rfl, List.append_nil _, hn⟩⟩
    · obtain ⟨m, c₁, hm, h⟩ := outcome_bind_ok h
      obtain ⟨_, c₂, hl, h⟩ := outcome_bind_ok h
      rw [outcome_lift_bind] at h
      cases hr : addModule c.current m main subprograms with
      | error e => rw [hr] at h; cases h
      | ok r =>
        rw [hr] at h
        obtain ⟨ts, hts, hm⟩ := Module.reads_parse.sound hm
        obtain ⟨hcur, ns, hns, hend⟩ := lineEnd_ok hl
        obtain ⟨hd, us, ms, hus, hrest, hc⟩ := ih hcur ((addModule_eq_ok hn).1 hr).2.2 h
        have hline : LineEnds ns ∨ ns = [] ∧ us = [] := by
          refine hend.imp_right fun ⟨hnil, hend⟩ => ⟨hnil, ?_⟩
          have hlen := hus.length
          rw [hus.eq_of_atEnd hend] at hlen
          exact List.eq_nil_of_length_eq_zero (by omega)
        exact ⟨hd, _, _, (hts.trans hns).trans hus, hrest.cons hm hline,
          (completes_cons _ hn).2 ⟨r, hr, hc⟩⟩

theorem modulesWithin_module {n : Nat} {c d : Cursor} {ts : List Token}
    {r : Option Module × List Module} (hm : Module.Spelled ts m)
    (hl : lineEnd.outcome c = (.ok (), d))
    (hr : addModule (Cursor.before ts c).current m main subprograms = .ok r) :
    (modulesWithin (n + 1) main subprograms).outcome (.before ts c) =
      (modulesWithin n r.1 r.2).outcome d := by
  have hend : (Cursor.before ts c).atEnd = false := by
    obtain ⟨t, us, rfl, -, ht⟩ := hm.begins
    exact decide_eq_false ht
  simp only [modulesWithin, outcome_cursor_bind, hend, Bool.false_eq_true, if_false]
  rw [outcome_bind_of_ok (Module.reads_parse.complete hm trivial), outcome_bind_of_ok hl,
    outcome_lift_bind, hr]

theorem modulesWithin_complete {n : Nat} {d : Cursor} {ts us below : List Token}
    (hn : NamesFree subprograms) (hm : Module.Spelled ts m) (hf : Module.Followers us ms)
    (hb : ∀ t ∈ below, t.kind = .endOfLine) (hd : d.atEnd = true)
    (h : Completes main subprograms (m :: ms) p) (hlen : ts.length + us.length < n) :
    (modulesWithin n main subprograms).outcome (.before ts (.before us (.before below d))) =
      (.ok p, d) := by
  have hkind : d.current.kind = .endOfFile := of_decide_eq_true hd
  induction hf generalizing n main subprograms m ts with
  | nil =>
    have hl : lineEnd.outcome (.before [] (.before below d)) = (.ok (), d) := by
      cases below with
      | nil => simp [lineEnd, hd]
      | cons t below => exact lineEnd_before ⟨by simp, hb⟩ (by simp [hkind])
    obtain ⟨t, us, rfl, -⟩ := hm.begins
    obtain ⟨r, hr, hmain, hsub, -⟩ := (completes_cons t hn).1 h
    cases n with
    | zero => omega
    | succ n =>
      rw [modulesWithin_module hm hl hr]
      cases n with
      | zero => simp at hlen
      | succ n =>
        rw [List.filter_nil, List.append_nil] at hmain hsub
        have hmain : r.1 = some p.main := eq_of_toList_eq hmain
        simp only [modulesWithin, outcome_cursor_bind, hd, if_true, hmain, hsub]
        rfl
  | cons hns hm' hf ih =>
    obtain ⟨t, us, rfl, -⟩ := hm.begins
    obtain ⟨r, hr, hc⟩ := (completes_cons t hn).1 h
    cases n with
    | zero => omega
    | succ n =>
      simp only [List.length_append, List.length_cons] at hlen
      simp only [Cursor.before_append]
      rw [modulesWithin_module hm (lineEnd_before hns ?_) hr]
      · exact ih ((addModule_eq_ok hn).1 hr).2.2 hm' hc (by omega)
      · obtain ⟨u, vs, rfl, hu, -⟩ := hm'.begins
        exact hu

theorem namesFree_nil : NamesFree [] := ⟨by simp, by simp⟩

theorem spelled_of_ofTokens {tokens : List Token} {p : Program} (h : ofTokens tokens = .ok p) :
    Spelled (tokens.takeWhile (·.kind ≠ .endOfFile)) p := by
  rw [← Cursor.takeWhile_ofTokens]
  rw [ofTokens, Program.parse] at h
  generalize Cursor.ofTokens tokens = c at h ⊢
  rw [outcome_skipLineEnds_bind, outcome_budget_bind] at h
  obtain ⟨above, habove, hkind⟩ := c.passes_skipLineEnds
  cases hout : (modulesWithin (c.skipLineEnds.rest.length + 1) none []).outcome c.skipLineEnds with
  | mk result d =>
    rw [hout] at h
    cases h
    obtain ⟨hd, ts, ms, hts, hrest, hc⟩ :=
      modulesWithin_sound c.skipLineEnds_current namesFree_nil hout
    rw [(habove.trans hts).takeWhile hd]
    cases hrest with
    | none => exact absurd hc.main (by simp)
    | some hm hf hb =>
      have hspelled := Spelled.mk hkind hm hf hb hc.main hc.subprograms hc.free
      simpa using hspelled

/-- Tokens that spell a program are parsed to it before the end of the file. -/
theorem Spelled.parse {c d : Cursor} {ts : List Token} (h : Spelled ts p) (hts : c.Passes ts d)
    (hd : d.atEnd = true) : Program.parse.outcome c = (.ok p, d) := by
  rw [Program.parse, outcome_skipLineEnds_bind, outcome_budget_bind]
  cases h with
  | @mk above ts us below m ms _ ha hm hf hb hmain hsub hfree =>
    have hcur : (Cursor.before ts (.before us (.before below d))).current.kind ≠ .endOfLine := by
      obtain ⟨t, vs, rfl, ht, -⟩ := hm.begins
      exact ht
    have hskip : c.skipLineEnds = .before ts (.before us (.before below d)) := by
      rw [hts.eq_before]
      simp only [Cursor.before_append]
      rw [Cursor.skipLineEnds_before ha, Cursor.skipLineEnds_of_kind hcur]
    have hc : Completes none [] (m :: ms) p := ⟨hmain, hsub, hfree⟩
    rw [hskip]
    refine modulesWithin_complete namesFree_nil hm hf hb hd hc ?_
    simp only [Cursor.length_rest_before]
    omega

theorem Spelled.passes {ts : List Token} (h : Spelled ts p) (d : Cursor) :
    (Cursor.before ts d).Passes ts d := by
  cases h with
  | mk ha hm hf hb =>
    simp only [Cursor.before_append]
    exact (((Cursor.passes_lineEnds ha _).trans (hm.passes _)).trans (hf.passes _)).trans
      (Cursor.passes_lineEnds hb d)

theorem Spelled.ofTokens {ts : List Token} (h : Spelled ts p) {t : Token}
    (ht : t.kind = .endOfFile) : Program.ofTokens (ts ++ [t]) = .ok p := by
  rw [Program.ofTokens, Cursor.ofTokens_append ht, h.parse (h.passes _) (decide_eq_true ht)]

/-- The program that a list of tokens is parsed to, if any, is the one that the tokens before the
first end of file spell. -/
theorem ofTokens_eq_ok_iff (tokens : List Token) (p : Program) :
    Program.ofTokens tokens = .ok p ↔ Spelled (tokens.takeWhile (·.kind ≠ .endOfFile)) p := by
  refine ⟨spelled_of_ofTokens, fun h => ?_⟩
  obtain ⟨ts, d, hts, hd⟩ := (Cursor.ofTokens tokens).exists_passes_atEnd
  rw [← Cursor.takeWhile_ofTokens, hts.takeWhile hd] at h
  rw [Program.ofTokens, h.parse hts hd]

end Program
end Seudocodigo
