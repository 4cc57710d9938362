import Seudocodigo.Compile
import Seudocodigo.Proofs.Places.Read
import Seudocodigo.Proofs.Separate
import Seudocodigo.Proofs.Token.Tiles

/-! Where the errors of a program are reported: at tokens of its text, and those of the types of a
module within that module. -/
namespace Seudocodigo

open Parse

def ModuleKind.closer : ModuleKind → Keyword
  | .main => .fin
  | .procedure => .finprocedimiento
  | .function _ => .finfuncion

structure Module.Extent (ts : List Token) (m : Module) : Prop where
  spelled : Module.Spelled ts m
  first : ts.head?.map (·.location) = some m.location
  closer : ts.getLast?.map (·.kind) = some (.keyword m.kind.closer)

namespace Module

variable {ts us : List Token} {m : Module} {ms : List Module}

theorem Body.getLast? {closer : Keyword} {body : List Statement} (h : Body closer ts body) :
    ts.getLast?.map (·.kind) = some (.keyword closer) := by
  cases h with
  | mk _ _ _ _ hu => rw [List.getLast?_concat, Option.map_some, hu]

theorem Spelled.extent (h : Spelled ts m) : Extent ts m := by
  have hlast {closer : Keyword} {body : List Statement} {before behind : List Token}
      (hb : Body closer behind body) :
      (before ++ behind).getLast?.map (·.kind) = some (.keyword closer) := by
    have hbehind := hb.getLast?
    obtain ⟨u, hu, -⟩ := Option.map_eq_some_iff.1 hbehind
    rw [List.getLast?_append, hu, Option.some_or, ← hu, hbehind]
  refine ⟨h, ?_, ?_⟩
  · cases h with
    | main | function | procedure => rfl
  · cases h with
    | main _ _ hb | function _ _ _ _ _ hb | procedure _ _ _ _ hb => exact hlast hb

/-- The places that are noted in a module are those of its tokens. -/
theorem Spelled.places_subset (h : Spelled ts m) : m.places ⊆ ts.map (·.location) := by
  obtain ⟨t, us, rfl, -, -⟩ := h.begins
  let d := Cursor.ofTokens [.endOfFile t.location]
  have htokens : (Cursor.before (t :: us) d).tokens ⊆ t :: us ++ [.endOfFile t.location] := by
    rw [Cursor.tokens_before]
    exact List.Subset.refl _
  have hdrawn := draws_parse htokens
  rw [reads_parse.complete h (d := d) trivial] at hdrawn
  cases hdrawn with
  | ok hplaces _ =>
    intro p hp
    have hmem := hplaces hp
    rw [List.map_append, List.mem_append] at hmem
    refine hmem.elim id fun hend => ?_
    rw [List.mem_singleton.1 hend]
    exact List.mem_cons_self

theorem Followers.joined (h : Followers us ms) (ts : List Token) :
    ∃ extents : List (List Token × Module), extents.map (·.2) = ms ∧
      (∀ x ∈ extents, Spelled x.1 x.2) ∧ Joined (ts :: extents.map (·.1)) (ts ++ us) := by
  induction h generalizing ts with
  | nil => exact ⟨[], rfl, nofun, by simpa using Joined.one ts⟩
  | @cons ns vs us m ms hns hm _ ih =>
    obtain ⟨extents, hmodules, hspelled, hjoined⟩ := ih vs
    refine ⟨(vs, m) :: extents, ?_, List.forall_mem_cons.2 ⟨hm, hspelled⟩, ?_⟩
    · rw [List.map_cons, hmodules]
    · have hmore := Joined.more (b := ts) hns hjoined
      simpa only [List.append_assoc, List.map_cons] using hmore

end Module

/-- The modules of a program as they follow one another in its tokens, each with an extent of its
own and all of different names. Between them there are only ends of lines. -/
structure Program.Stretches (p : Program) (tokens : List Token)
    (extents : List (List Token × Module)) : Prop where
  tokens : ∃ above ts below file, tokens = above ++ ts ++ below ++ [file] ∧
    Joined (extents.map (·.1)) ts ∧ (∀ t ∈ above ++ below, t.kind = .endOfLine) ∧
    file.kind = .endOfFile
  extent : ∀ x ∈ extents, Module.Extent x.1 x.2
  main : (extents.map (·.2)).filter (·.kind = .main) = [p.main]
  subprograms : (extents.map (·.2)).filter (·.kind ≠ .main) = p.subprograms
  distinct : (p.modules.map (·.name)).Nodup

namespace Program

variable {p : Program} {tokens : List Token} {extents : List (List Token × Module)}

theorem exists_stretches {file : Token} (hfile : file.kind = .endOfFile)
    (htokens : ∀ t ∈ tokens, t.kind ≠ .endOfFile) (h : ofTokens (tokens ++ [file]) = .ok p) :
    ∃ extents, p.Stretches (tokens ++ [file]) extents := by
  have hspelled := spelled_of_ofTokens h
  rw [List.takeWhile_append_of_pos fun t ht => decide_eq_true (htokens t ht),
    List.takeWhile_cons_of_neg (by simp [hfile]), List.append_nil] at hspelled
  have hdistinct := hspelled.distinct
  cases hspelled with
  | @mk above ts us below m ms _ habove hm hms hbelow hmain hsub _ =>
    obtain ⟨extents, hmodules, hall, hjoined⟩ := hms.joined ts
    refine ⟨(ts, m) :: extents, ?_, ?_, ?_, ?_, hdistinct⟩
    · refine ⟨above, ts ++ us, below, file, ?_, hjoined, ?_, hfile⟩
      · simp only [List.append_assoc]
      · exact List.forall_mem_append.2 ⟨habove, hbelow⟩
    · exact List.forall_mem_cons.2 ⟨hm.extent, fun x hx => (hall x hx).extent⟩
    · rw [List.map_cons, hmodules, hmain]
    · rw [List.map_cons, hmodules, hsub]

/-- Every module of the program has its stretch. -/
theorem Stretches.exists_mem (h : p.Stretches tokens extents) {m : Module} (hm : m ∈ p.modules) :
    ∃ x ∈ extents, x.2 = m := by
  have hmem : m ∈ extents.map (·.2) := by
    cases List.mem_cons.1 hm with
    | inl he =>
      have hmain : p.main ∈ (extents.map (·.2)).filter (·.kind = .main) := by simp [h.main]
      exact he ▸ (List.mem_filter.1 hmain).1
    | inr hm => exact (List.mem_filter.1 (h.subprograms ▸ hm)).1
  obtain ⟨x, hx, he⟩ := List.mem_map.1 hmem
  exact ⟨x, hx, he⟩

theorem exists_of_mem_reports {r : Report} (h : r ∈ p.reports) :
    ∃ m ∈ p.modules, r = m.hoisted.report p.signatures ∧ r.errors ≠ [] := by
  obtain ⟨hmem, herrors⟩ := List.mem_filter.1 h
  obtain ⟨s, hs, rfl⟩ := List.mem_map.1 hmem
  obtain ⟨m, hm, rfl⟩ := List.mem_map.1 hs
  exact ⟨m, hm, rfl, by simpa using herrors⟩

/-- The reports are in the order of the modules. -/
theorem modules_reports_sublist (p : Program) :
    (p.reports.map (·.module)).Sublist (p.modules.map (·.name)) := by
  have hall : (p.hoisted.map (·.report p.signatures)).map (·.module) = p.modules.map (·.name) := by
    rw [hoisted, List.map_map, List.map_map]
    rfl
  rw [← hall]
  exact List.filter_sublist.map _

/-- The errors of a report are at tokens of the module that it names. -/
theorem Stretches.location_of_mem_reports (h : p.Stretches tokens extents) {r : Report}
    (hr : r ∈ p.reports) : ∃ x ∈ extents, x.2.name = r.module ∧
      ∀ e ∈ r.errors, ∃ t ∈ x.1, e.location = t.location := by
  obtain ⟨m, hm, rfl, -⟩ := exists_of_mem_reports hr
  obtain ⟨x, hx, rfl⟩ := h.exists_mem hm
  refine ⟨x, hx, rfl, fun e he => ?_⟩
  have hplace := (h.extent x hx).spelled.places_subset (Module.justified_of_mem_report he).location
  obtain ⟨t, ht, hlocation⟩ := List.mem_map.1 hplace
  exact ⟨t, ht, hlocation.symm⟩

/-- A syntax error is about one of the tokens. -/
theorem exists_of_ofTokens_error {file : Token} {e : SyntaxError} (hfile : file.kind = .endOfFile)
    (h : ofTokens (tokens ++ [file]) = .error e) :
    ∃ t ∈ tokens ++ [file], e.found = t.kind ∧ e.location = t.location := by
  have htokens : (Cursor.ofTokens (tokens ++ [file])).tokens ⊆ tokens ++ [file] := by
    rw [Cursor.tokens_ofTokens_append hfile]
    exact List.Subset.refl _
  have hdrawn := draws_parse htokens
  rw [ofTokens] at h
  generalize Program.parse.outcome (.ofTokens (tokens ++ [file])) = r at h hdrawn
  cases hdrawn with
  | ok => cases h
  | @error t _ _ _ ht =>
    cases h
    exact ⟨t, ht, rfl, rfl⟩

end Program

variable {source : String}

/-- The end of the file comes last, so that nothing of a text is left unread. -/
theorem exists_of_tokenize {tokens : List Token} (h : tokenize source = .ok tokens) :
    ∃ others file, tokens = others ++ [file] ∧ file.kind = .endOfFile ∧
      ∀ t ∈ others, t.kind ≠ .endOfFile := by
  obtain ⟨others, hothers, hkinds⟩ :=
    exists_scanFrom_eq_append .start (source.toList.filter (· ≠ '\r'))
  exact ⟨others, _, (tokens_of_tokenize h).trans hothers, rfl, hkinds⟩

theorem exists_of_compile_grammar {e : SyntaxError} (h : compile source = .error (.grammar e)) :
    ∃ tokens, tokenize source = .ok tokens ∧ Program.ofTokens tokens = .error e := by
  obtain ⟨errors, -, hresult⟩ | ⟨tokens, htokens, ⟨d, hd, hresult⟩ | ⟨p, -, hresult⟩⟩ :=
    compile_cases source
  · cases h.symm.trans hresult
  · cases h.symm.trans hresult
    exact ⟨tokens, htokens, hd⟩
  · obtain ⟨-, hresult⟩ | ⟨-, hresult⟩ := hresult
    · cases h.symm.trans hresult
    · cases h.symm.trans hresult

theorem exists_of_compile_types {reports : List Report}
    (h : compile source = .error (.types reports)) : ∃ tokens p, tokenize source = .ok tokens ∧
      Program.ofTokens tokens = .ok p ∧ reports = p.reports := by
  obtain ⟨errors, -, hresult⟩ | ⟨tokens, htokens, ⟨d, -, hresult⟩ | ⟨p, hp, hresult⟩⟩ :=
    compile_cases source
  · cases h.symm.trans hresult
  · cases h.symm.trans hresult
  · obtain ⟨-, hresult⟩ | ⟨-, hresult⟩ := hresult
    · cases h.symm.trans hresult
    · cases h.symm.trans hresult
      exact ⟨tokens, p, htokens, hp, rfl⟩

/-- A text that fails to compile is reported at its tokens. A syntax error has the kind and the
place of one of them. Type errors come in reports: that of the main module first, then those of the
others in the order of the text, and each of them at tokens from the first one of the module to the
word that closes it. -/
theorem compile_places (source : String) :
    (∀ e, compile source = .error (.grammar e) → ∃ tokens, tokenize source = .ok tokens ∧
      ∃ t ∈ tokens, e.found = t.kind ∧ e.location = t.location) ∧
    ∀ reports, compile source = .error (.types reports) → ∃ tokens p extents,
      tokenize source = .ok tokens ∧ Program.ofTokens tokens = .ok p ∧
        p.Stretches tokens extents ∧
        (reports.map (·.module)).Sublist (p.modules.map (·.name)) ∧
        (reports.map (·.module)).Nodup ∧
        ∀ r ∈ reports, r.errors ≠ [] ∧ ∃ x ∈ extents, x.2.name = r.module ∧
          ∀ e ∈ r.errors, ∃ t ∈ x.1, e.location = t.location := by
  refine ⟨fun e he => ?_, fun reports hreports => ?_⟩
  · obtain ⟨tokens, htokens, herror⟩ := exists_of_compile_grammar he
    obtain ⟨others, file, rfl, hfile, -⟩ := exists_of_tokenize htokens
    exact ⟨_, htokens, Program.exists_of_ofTokens_error hfile herror⟩
  · obtain ⟨tokens, p, htokens, hp, rfl⟩ := exists_of_compile_types hreports
    obtain ⟨others, file, rfl, hfile, hkinds⟩ := exists_of_tokenize htokens
    obtain ⟨extents, hstretches⟩ := Program.exists_stretches hfile hkinds hp
    have hsublist := p.modules_reports_sublist
    refine ⟨_, p, extents, htokens, hp, hstretches, hsublist, hsublist.nodup hstretches.distinct,
      fun r hr => ?_⟩
    obtain ⟨m, -, -, herrors⟩ := Program.exists_of_mem_reports hr
    exact ⟨herrors, hstretches.location_of_mem_reports hr⟩

def valueless : String := "variables\ninicio\nx <- \nfin\n"

/-- A function that declares a parameter twice, stores to a variable that there is not and returns
nothing, before a main module that looks into an array that there is not. -/
def twoReports : String :=
  "entero funcion f(entero x, logico x)\ninicio\ny <- 1\nfinfuncion\n"
    ++ "variables\ninicio\nescribir(z[1])\nfin\n"

def twoReportsFound : List Report :=
  [⟨"principal", [⟨.undefinedVariable "z", ⟨7, 10⟩⟩]⟩,
    ⟨"f", [⟨.duplicateVariable "x", ⟨1, 28⟩⟩, ⟨.undefinedVariable "y", ⟨3, 1⟩⟩,
      ⟨.missingResult "f", ⟨1, 1⟩⟩]⟩]

theorem compile_places_twoReports :
    (∃ tokens, tokenize valueless = .ok tokens ∧
      ∃ t ∈ tokens, t.kind = .endOfLine ∧ t.location = ⟨3, 6⟩) ∧
    ∃ tokens p extents, tokenize twoReports = .ok tokens ∧ Program.Stretches p tokens extents ∧
      ∀ r ∈ twoReportsFound, ∃ x ∈ extents, x.2.name = r.module ∧
        ∀ e ∈ r.errors, ∃ t ∈ x.1, e.location = t.location := by
  have of_map {source : String} {e : CompileError}
      (h : (compile source).map (fun _ => ()) = .error e) : compile source = .error e := by
    cases hsource : compile source with
    | ok compiled => rw [hsource] at h; cases h
    | error other => rw [hsource] at h; cases h; rfl
  have hgrammar : compile valueless =
      .error (.grammar ⟨.endOfLine, ["expression"], ⟨3, 6⟩, none⟩) :=
    of_map (by decide +kernel)
  have htypes : compile twoReports = .error (.types twoReportsFound) := of_map (by decide +kernel)
  obtain ⟨tokens, htokens, t, ht, hkind, hlocation⟩ := (compile_places valueless).1 _ hgrammar
  obtain ⟨others, p, extents, hothers, -, hstretches, -, -, hall⟩ :=
    (compile_places twoReports).2 _ htypes
  exact ⟨⟨tokens, htokens, t, ht, hkind.symm, hlocation.symm⟩, others, p, extents, hothers,
    hstretches, fun r hr => (hall r hr).2⟩

end Seudocodigo
