import Seudocodigo.Proofs.Blame.Module
import Seudocodigo.Proofs.Grammar.Program

/-! A syntax error is about the first token with which the tokens so far begin no program. -/
namespace Seudocodigo

open Parse

namespace Program

variable {m : Module} {main : Option Module} {subprograms ms : List Module} {p : Program}

def moduleLine : Parse Module := do
  let m ← Module.parse
  lineEnd
  return m

def modulesRead : Nat → Cursor → List Module × Cursor
  | 0, c => ([], c)
  | n + 1, c =>
    match moduleLine.outcome c with
    | (.ok m, d) => (m :: (modulesRead n d).1, (modulesRead n d).2)
    | (.error _, _) => ([], c)

def readModules (tokens : List Token) : List Module × Cursor :=
  modulesRead ((Cursor.ofTokens tokens).skipLineEnds.rest.length + 1)
    (Cursor.ofTokens tokens).skipLineEnds

theorem outcome_modulesWithin_succ (n : Nat) {c : Cursor} (hc : c.atEnd = false) :
    (modulesWithin (n + 1) main subprograms).outcome c = (do
      let m ← moduleLine
      let r ← addModule c.current m main subprograms
      modulesWithin n r.1 r.2 : Parse Program).outcome c := by
  simp only [modulesWithin, outcome_cursor_bind, hc, Bool.false_eq_true, if_false, moduleLine,
    bind_assoc, pure_bind]

/-- The tokens make up a program with the modules before them. -/
def Remainder (main : Option Module) (subprograms : List Module) (ts : List Token) (p : Program) :
    Prop :=
  ∃ ms, Rest ts ms ∧ Completes main subprograms ms p

/-- Modules make up a program as they are, or with a main module behind them. -/
theorem begins_remainder (hn : NamesFree subprograms) : Begins (Remainder main subprograms) [] := by
  cases main with
  | some main => exact ⟨[], ⟨main, subprograms⟩, [], .none, rfl, List.append_nil _, hn⟩
  | none =>
    obtain ⟨ts, body, hbody⟩ := Module.begins_body_of_declarations .fin (.of .nil)
    have hm := Module.Spelled.main (t := .ofKind _) rfl lineEnds_ofKind hbody
    have hblank : ∀ t ∈ ([] : List Token), t.kind = .endOfLine := by simp
    exact ⟨_, ⟨_, subprograms⟩, _, .some hm .nil hblank, rfl, List.append_nil _, hn⟩

theorem begins_remainder_cons {first : Token} {ts ns us : List Token}
    {r : Option Module × List Module} (hn : NamesFree subprograms) (hm : Module.Spelled ts m)
    (hns : LineEnds ns) (hr : addModule first m main subprograms = .ok r)
    (h : Begins (Remainder r.1 r.2) us) :
    Begins (Remainder main subprograms) (ts ++ (ns ++ us)) := by
  obtain ⟨xs, p, ms, hrest, hc⟩ := h
  refine ⟨xs, p, m :: ms, ?_, (completes_cons first hn).2 ⟨r, hr, hc⟩⟩
  simpa using hrest.cons hm (.inl hns)

structure Sorted (ms : List Module) (main : Option Module) (subprograms : List Module) : Prop where
  main : main.toList = ms.filter (·.kind = .main)
  subprograms : subprograms = ms.filter (·.kind ≠ .main)

theorem Sorted.exists_addModule (h : Sorted ms main subprograms) (hm : m.FitsBehind ms)
    (first : Token) : ∃ r, addModule first m main subprograms = .ok r := by
  rw [Module.FitsBehind] at hm
  rw [addModule]
  split at hm
  · next hk =>
    have hnone : main.toList = [] := by
      rw [h.main, List.filter_eq_nil_iff]
      intro n hmem
      simpa using hm n hmem
    have hnone : main = none := eq_of_toList_eq hnone
    rw [if_pos hk, hnone]
    exact ⟨_, rfl⟩
  · next hk =>
    obtain ⟨hreserved, hfree⟩ := hm
    obtain ⟨hmain, hbuiltin⟩ := not_mem_reserved.1 hreserved
    have hnew : subprograms.any (·.name = m.name) = false := by
      rw [h.subprograms, List.any_eq_false]
      intro n hmem
      have hmem := List.mem_filter.1 hmem
      simpa using hfree n hmem.1 (by simpa using hmem.2)
    rw [if_neg hk, hnew, hbuiltin]
    exact ⟨_, if_neg (by simpa using hmain)⟩

theorem Sorted.snoc (h : Sorted ms main subprograms) (hn : NamesFree subprograms) {first : Token}
    {r : Option Module × List Module} (hr : addModule first m main subprograms = .ok r) :
    Sorted (ms ++ [m]) r.1 r.2 := by
  obtain ⟨hmain, hsub, -⟩ := (addModule_eq_ok hn).1 hr
  exact ⟨by rw [hmain, h.main, List.filter_append], by rw [hsub, h.subprograms, List.filter_append]⟩

theorem begins_remainder_of_module (h : Sorted ms main subprograms) (hn : NamesFree subprograms)
    {ts : List Token} (hts : Begins (Module.SpelledBehind ms) ts) :
    Begins (Remainder main subprograms) ts := by
  obtain ⟨xs, m, hm, hfits⟩ := hts
  obtain ⟨r, hr⟩ := h.exists_addModule hfits (.ofKind .endOfFile)
  obtain ⟨ys, p, hp⟩ := begins_remainder_cons hn hm lineEnds_ofKind hr
    (begins_remainder ((addModule_eq_ok hn).1 hr).2.2)
  exact ⟨xs ++ .ofKind .endOfLine :: ys, p, by simpa using hp⟩

theorem moduleLine_sound {c d : Cursor} (h : moduleLine.outcome c = (.ok m, d)) :
    ∃ ts ns, c.Passes (ts ++ ns) d ∧ Module.Spelled ts m ∧
      (LineEnds ns ∨ ns = [] ∧ d.atEnd = true) := by
  obtain ⟨m, b, hm, h⟩ := outcome_bind_ok h
  obtain ⟨_, e, hl, h⟩ := outcome_bind_ok h
  cases h
  obtain ⟨ts, hts, hm⟩ := Module.reads_parse.sound hm
  obtain ⟨-, ns, hns, hend⟩ := lineEnd_ok hl
  exact ⟨ts, ns, hts.trans hns, hm, hend⟩

/-- Where the file ends, nothing follows, so the end of the line may be missing. -/
theorem begins_remainder_line {first : Token} {c b d : Cursor} {us : List Token}
    {r : Option Module × List Module} (hn : NamesFree subprograms)
    (hline : moduleLine.outcome c = (.ok m, b)) (hr : addModule first m main subprograms = .ok r)
    (hus : b.Passes us d) (h : Begins (Remainder r.1 r.2) us) :
    ∃ ts, c.Passes ts d ∧ Begins (Remainder main subprograms) ts := by
  obtain ⟨ts, ns, hts, hm, hns⟩ := moduleLine_sound hline
  cases hns with
  | inl hns =>
    refine ⟨_, hts.trans hus, ?_⟩
    rw [List.append_assoc]
    exact begins_remainder_cons hn hm hns hr h
  | inr hend =>
    obtain ⟨rfl, hend⟩ := hend
    cases hus.eq_of_atEnd hend
    rw [List.append_nil] at hts
    exact ⟨ts, hts, (begins_remainder_cons hn hm lineEnds_ofKind hr h).of_append _⟩

theorem blames_moduleLine {c : Cursor} (hroom : Module.HasRoom ms c) :
    Blames (Begins (Module.SpelledBehind ms)) moduleLine c := by
  refine .read (Module.blames_parse hroom) (fun hok => ?_) id fun _ _ hV =>
    .lineEnd_bind hV fun _ _ => .pure _ _
  obtain ⟨ts, hts, hm⟩ := Module.reads_parse.sound hok
  exact ⟨ts, hts, hm, hm.fitsBehind (hts.eq_before ▸ hroom)⟩

theorem reason_of_addModule {first : Token} {e : SyntaxError}
    (h : addModule first m main subprograms = .error e) :
    e.reason = some .duplicateMain ∨ e.reason = some .duplicateModule := by
  rw [addModule] at h
  split at h
  · split at h
    · cases h; exact .inl rfl
    · cases h
  · split at h
    · cases h; exact .inr rfl
    · cases h

/-- Where there is room for the module that is being read, modules are read as far as they can still
be completed to a program. -/
theorem begins_of_modulesWithin {n : Nat} {c d : Cursor} {e : SyntaxError}
    (hms : Sorted ms main subprograms) (hn : NamesFree subprograms)
    (h : (modulesWithin n main subprograms).outcome c = (.error e, d))
    (hmain : e.reason ≠ some .duplicateMain) (hmodule : e.reason ≠ some .duplicateModule)
    (hroom : Module.HasRoom (ms ++ (modulesRead n c).1) (modulesRead n c).2) :
    ∃ ts, c.Passes ts d ∧ Begins (Remainder main subprograms) ts ∧
      e = .ofToken d.current e.expected e.reason := by
  induction n generalizing c main subprograms ms with
  | zero => cases h; exact ⟨[], .refl _, begins_remainder hn, rfl⟩
  | succ n ih =>
    cases hc : c.atEnd with
    | true =>
      simp only [modulesWithin, outcome_cursor_bind, hc, if_true] at h
      cases main with
      | none => cases h; exact ⟨[], .refl _, begins_remainder hn, rfl⟩
      | some main => cases h
    | false =>
      rw [outcome_modulesWithin_succ n hc, outcome_bind] at h
      cases hline : moduleLine.outcome c with
      | mk r b =>
        simp only [modulesRead, hline] at h hroom
        cases r with
        | error _ =>
          rw [List.append_nil] at hroom
          cases h
          obtain ⟨ts, hts, hbegins, he⟩ := blames_moduleLine hroom hline
          exact ⟨ts, hts, begins_remainder_of_module hms hn hbegins, he⟩
        | ok m =>
          dsimp only at h hroom
          rw [outcome_lift_bind] at h
          cases hr : addModule c.current m main subprograms with
          | error _ =>
            rw [hr] at h
            cases h
            exact absurd (reason_of_addModule hr) (by simp [hmain, hmodule])
          | ok r =>
            rw [hr] at h
            rw [List.append_cons] at hroom
            have hn' := ((addModule_eq_ok hn).1 hr).2.2
            obtain ⟨us, hus, hbegins, he⟩ := ih (hms.snoc hn hr) hn' h hroom
            obtain ⟨ts, hts, hbegins⟩ := begins_remainder_line hn hline hr hus hbegins
            exact ⟨ts, hts, hbegins, he⟩

/-- A syntax error is reported at the earliest possible token: what stands before that token can be
completed to a program. This is so unless an earlier module stands in the way of the one that is
being read. -/
theorem begins_of_error {tokens : List Token} {e : SyntaxError} {d : Cursor}
    (h : Program.parse.outcome (.ofTokens tokens) = (.error e, d))
    (hmain : e.reason ≠ some .duplicateMain) (hmodule : e.reason ≠ some .duplicateModule)
    (hroom : Module.HasRoom (readModules tokens).1 (readModules tokens).2) :
    ∃ ts, (Cursor.ofTokens tokens).Passes ts d ∧
      e = .ofToken d.current e.expected e.reason ∧
      ∃ us p, Program.ofTokens (ts ++ us) = .ok p := by
  rw [Program.parse, outcome_skipLineEnds_bind, outcome_budget_bind] at h
  obtain ⟨above, habove, hblank⟩ := (Cursor.ofTokens tokens).passes_skipLineEnds
  have hsorted : Sorted [] none [] := ⟨rfl, rfl⟩
  obtain ⟨ts, hts, ⟨us, p, ms, hrest, hc⟩, he⟩ :=
    begins_of_modulesWithin hsorted namesFree_nil h hmain hmodule hroom
  have hspelled : Spelled (above ++ (ts ++ us)) p := by
    generalize ts ++ us = rest at hrest
    cases hrest with
    | none => cases hc.main
    | some hm hf hb => simpa using Spelled.mk hblank hm hf hb hc.main hc.subprograms hc.free
  refine ⟨above ++ ts, habove.trans hts, he, us ++ [.ofKind .endOfFile], p, ?_⟩
  have haccepted := hspelled.ofTokens (t := .ofKind .endOfFile) rfl
  simpa using haccepted

def openProcedure : List Token :=
  [⟨.keyword .vars, "variables", ⟨1, 1⟩⟩, ⟨.endOfLine, "\n", ⟨1, 10⟩⟩,
    ⟨.keyword .inicio, "inicio", ⟨2, 1⟩⟩, ⟨.endOfLine, "\n", ⟨2, 7⟩⟩,
    ⟨.keyword .fin, "fin", ⟨3, 1⟩⟩, ⟨.endOfLine, "\n", ⟨3, 4⟩⟩,
    ⟨.keyword .procedimiento, "procedimiento", ⟨4, 1⟩⟩, ⟨.word "p", "p", ⟨4, 15⟩⟩,
    ⟨.symbol .leftParen, "(", ⟨4, 16⟩⟩, ⟨.endOfLine, "\n", ⟨4, 17⟩⟩,
    ⟨.endOfFile, "", ⟨5, 1⟩⟩]

/-- The end of the line is the error, and what stands before it can be completed. -/
theorem begins_openProcedure : ∃ d e,
    Program.parse.outcome (.ofTokens openProcedure) = (.error e, d) ∧ e.location = ⟨4, 17⟩ ∧
      ∃ us p, Program.ofTokens (openProcedure.take 9 ++ us) = .ok p := by
  have hroom : Module.HasRoom (readModules openProcedure).1 (readModules openProcedure).2 :=
    ⟨by decide +kernel, by decide +kernel⟩
  have herror : Program.parse.outcome (.ofTokens openProcedure) = (.error _, _) := rfl
  obtain ⟨ts, hts, -, us, p, hp⟩ := begins_of_error herror (by decide) (by decide) hroom
  have hbefore : ts = openProcedure.take 9 := List.append_cancel_right (hts.1.symm.trans rfl)
  exact ⟨_, _, herror, rfl, us, p, hbefore ▸ hp⟩

end Program
end Seudocodigo
