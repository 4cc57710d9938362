import Mathlib.Data.List.Basic
import Mathlib.Data.List.Induction
import Seudocodigo.Compile

/-! Who hears what is announced. An emitter is asked one thing after the other: to take on
listeners, to announce events and to compile. Whatever its listeners do when they hear an event, all
that happens is that they hear the events one by one, in an order that only depends on what was
asked. -/
namespace Seudocodigo

variable {m : Type → Type}

inductive Request (m : Type → Type) where
  | onAny (listener : Event → m Unit)
  | on (kind : EventKind) (listener : Event → m Unit)
  | emit (event : Event)
  | compile (source : String)

namespace Request

def perform [Monad m] (e : Emitter m) : Request m → m (Emitter m)
  | .onAny listener => return e.onAny listener
  | .on kind listener => return e.on kind listener
  | .emit event => do
    e.emit event
    return e
  | .compile source => do
    let _ ← compileWith e source
    return e

def events : Request m → List Event
  | .onAny _ | .on .. => []
  | .emit event => [event]
  | .compile source => eventsOf source

def register (e : Emitter m) : Request m → Emitter m
  | .onAny listener => e.onAny listener
  | .on kind listener => e.on kind listener
  | .emit _ | .compile _ => e

def act [Monad m] : Request m → Event → m Unit
  | .onAny listener, event | .on _ listener, event => listener event
  | .emit _, _ | .compile _, _ => return ()

def isAny : Request m → Bool
  | .onAny _ => true
  | .on .. | .emit _ | .compile _ => false

def isFor (kind : EventKind) : Request m → Bool
  | .on k _ => k = kind
  | .onAny _ | .emit _ | .compile _ => false

def hears (r : Request m) (event : Event) : Bool := r.isAny || r.isFor event.kind

def registered (rs : List (Request m)) : Emitter m := rs.foldl register .empty

/-- Which of the requests so far have brought the listeners that hear the event, with their numbers,
in the order in which the event is heard: the listeners to all events before those to its kind, and
both in the order in which they came. -/
def audience (rs : List (Request m)) (event : Event) : List (Request m × Nat) :=
  rs.zipIdx.filter (·.1.isAny) ++ rs.zipIdx.filter (·.1.isFor event.kind)

end Request

structure Hearing (m : Type → Type) where
  /-- The request that brought the listener. -/
  registration : Request m
  /-- The number of requests before that one. -/
  number : Nat
  event : Event

namespace Request

def hearingsOf (rs : List (Request m)) (event : Event) : List (Hearing m) :=
  (audience rs event).map fun x => ⟨x.1, x.2, event⟩

/-- All that is heard: the events of the first request, then those of the second and so on, and each
event by its whole audience before the next event. -/
def hearings (rs : List (Request m)) : List (Hearing m) :=
  rs.zipIdx.flatMap fun x => x.1.events.flatMap (hearingsOf (rs.take x.2))

def performAll [Monad m] (rs : List (Request m)) : m (Emitter m) := rs.foldlM perform .empty

end Request

/-! What is announced while a program is compiled. -/

def complaints : Except CompileError Program → List Event
  | .error (.lexical errors) => errors.map .lexicalError
  | .error (.grammar error) => [.syntaxError error]
  | .error (.types _) | .ok _ => []

def announcements (source : String) : List Event :=
  .parsingStarted :: complaints (Program.ofSource source)
    ++ [.parsingFinished (Program.ofSource source).toBool]

theorem announce_eq [Monad m] [LawfulMonad m] (e : Emitter m) (source : String) :
    Program.announce e source = do
      (announcements source).forM e.emit
      return Program.ofSource source := by
  rw [Program.announce, announcements]
  cases Program.ofSource source with
  | ok p => simp [complaints]
  | error error => cases error <;> simp [complaints]

theorem compileWith_announcements [Monad m] [LawfulMonad m] (e : Emitter m) (source : String) :
    compileWith e source = do
      (announcements source).forM e.emit
      return compile source := by
  rw [compileWith, announce_eq, bind_assoc]
  simp only [pure_bind]
  rfl

/-- A listener that keeps a record hears everything. -/
theorem eventsOf_eq (source : String) : eventsOf source = announcements source := by
  have hrecord (es log : List Event) :
      ((es.forM (Emitter.empty.onAny fun e => modify (· ++ [e]) :
        Emitter (StateM (List Event))).emit).run log).2 = log ++ es := by
    induction es generalizing log with
    | nil => exact (List.append_nil log).symm
    | cons e es ih => exact (ih (log ++ [e])).trans (List.append_assoc log [e] es)
  rw [eventsOf, compileWith_announcements]
  exact hrecord (announcements source) []

/-- Reading is a success if there is a program, with type errors or without them. -/
theorem toBool_ofSource (source : String) : (Program.ofSource source).toBool = true ↔
    (∃ p, compile source = .ok p) ∨ ∃ reports, compile source = .error (.types reports) := by
  rw [Program.ofSource]
  obtain ⟨errors, herrors, hresult⟩ | ⟨tokens, htokens, ⟨e, he, hresult⟩ | ⟨p, hp, hresult⟩⟩ :=
    compile_cases source
  · simp [herrors, hresult, Except.toBool]
  · simp [htokens, he, hresult, Except.mapError, Except.toBool]
  · obtain ⟨-, hresult⟩ | ⟨-, hresult⟩ := hresult
    · simp [htokens, hp, hresult, Except.mapError, Except.toBool]
    · simp [htokens, hp, hresult, Except.mapError, Except.toBool]

/-- The beginning is announced first and the end last. What stands between them, and what the end
says, is up to the result that is returned. -/
theorem eventsOf_result (source : String) : ∃ middle success,
    eventsOf source = .parsingStarted :: middle ++ [.parsingFinished success] ∧
    (success = true ↔
      (∃ p, compile source = .ok p) ∨ ∃ reports, compile source = .error (.types reports)) ∧
    (∀ errors, tokenize source = .error errors →
      middle = errors.map .lexicalError ∧ compile source = .error (.lexical errors)) ∧
    (∀ tokens error, tokenize source = .ok tokens → Program.ofTokens tokens = .error error →
      middle = [.syntaxError error] ∧ compile source = .error (.grammar error)) ∧
    ∀ tokens p, tokenize source = .ok tokens → Program.ofTokens tokens = .ok p → middle = [] := by
  refine ⟨_, _, eventsOf_eq source, toBool_ofSource source, fun errors herrors => ?_,
    fun tokens error htokens herror => ?_, fun tokens p htokens hp => ?_⟩
  · have hsource : Program.ofSource source = .error (.lexical errors) := by
      rw [Program.ofSource, herrors]
    rw [compile, hsource]
    exact ⟨rfl, rfl⟩
  · have hsource : Program.ofSource source = .error (.grammar error) := by
      rw [Program.ofSource, htokens]
      exact congrArg (Except.mapError CompileError.grammar) herror
    rw [compile, hsource]
    exact ⟨rfl, rfl⟩
  · have hsource : Program.ofSource source = .ok p := by
      rw [Program.ofSource, htokens]
      exact congrArg (Except.mapError CompileError.grammar) hp
    rw [hsource]
    rfl

/-! What the listeners hear. -/

namespace Request

/-- One element of a list has the given number. -/
theorem filter_zipIdx {α : Type} {xs : List α} {i : Nat} {x : α} (h : xs[i]? = some x) :
    xs.zipIdx.filter (·.2 = i) = [(x, i)] := by
  induction xs using List.reverseRecOn with
  | nil => cases h
  | append_singleton xs y ih =>
    rw [List.zipIdx_append, List.zipIdx_singleton, Nat.zero_add, List.filter_append]
    by_cases hi : i = xs.length
    · subst hi
      rw [List.getElem?_concat_length, Option.some_inj] at h
      have hearlier : xs.zipIdx.filter (·.2 = xs.length) = [] := by
        refine List.filter_eq_nil_iff.2 fun z hz => ?_
        have hlt := (List.getElem?_eq_some_iff.1 (List.mem_zipIdx_iff_getElem?.1 hz)).1
        simpa using Nat.ne_of_lt hlt
      rw [hearlier, h]
      simp
    · have hlt : i < xs.length := by
        have hle := (List.getElem?_eq_some_iff.1 h).1
        rw [List.length_append, List.length_singleton] at hle
        omega
      rw [List.getElem?_append_left hlt] at h
      rw [ih h]
      simp [Ne.symm hi]

variable {rs : List (Request m)} {r : Request m} {event : Event}

theorem getElem?_of_mem_audience {x : Request m × Nat} (hx : x ∈ audience rs event) :
    rs[x.2]? = some x.1 := by
  rw [audience, List.mem_append, List.mem_filter, List.mem_filter] at hx
  exact List.mem_zipIdx_iff_getElem?.1 (hx.elim And.left And.left)

/-- A listener is once in the audience of an event that it hears, and not at all in any other. -/
theorem filter_audience {i : Nat} (h : rs[i]? = some r) (event : Event) :
    (audience rs event).filter (·.2 = i) = if r.hears event then [(r, i)] else [] := by
  have hnumber (p : Request m → Bool) : (rs.zipIdx.filter fun x => p x.1).filter (·.2 = i) =
      [(r, i)].filter fun x => p x.1 := by
    rw [List.filter_comm, filter_zipIdx h]
  rw [audience, List.filter_append, hnumber, hnumber]
  cases r with
  | onAny | emit | compile => simp [hears, isAny, isFor]
  | on kind => by_cases hkind : kind = event.kind <;> simp [hears, isAny, isFor, hkind]

theorem hearings_concat (rs : List (Request m)) (r : Request m) :
    hearings (rs ++ [r]) = hearings rs ++ r.events.flatMap (hearingsOf rs) := by
  rw [hearings, List.zipIdx_append, List.zipIdx_singleton, List.flatMap_append,
    List.flatMap_singleton, Nat.zero_add, List.take_left, hearings]
  refine congrArg (· ++ _) (List.flatMap_congr fun x hx => ?_)
  have hlt := (List.getElem?_eq_some_iff.1 (List.mem_zipIdx_iff_getElem?.1 hx)).1
  rw [List.take_append_of_le_length (Nat.le_of_lt hlt)]

theorem getElem?_of_mem_hearings {h : Hearing m} (hh : h ∈ hearings rs) :
    rs[h.number]? = some h.registration := by
  induction rs using List.reverseRecOn with
  | nil => cases hh
  | append_singleton rs r ih =>
    have hearlier : rs[h.number]? = some h.registration := by
      rw [hearings_concat, List.mem_append] at hh
      rcases hh with hh | hh
      · exact ih hh
      · obtain ⟨event, -, hh⟩ := List.mem_flatMap.1 hh
        obtain ⟨x, hx, rfl⟩ := List.mem_map.1 hh
        exact getElem?_of_mem_audience hx
    rw [List.getElem?_append_left (List.getElem?_eq_some_iff.1 hearlier).1, hearlier]

/-- What one listener hears of an event that is announced behind its registration. -/
theorem filter_hearingsOf {i : Nat} (h : rs[i]? = some r) (event : Event) :
    ((hearingsOf rs event).filter (·.number = i)).map (·.event) = [event].filter r.hears := by
  have hnumber : (hearingsOf rs event).filter (·.number = i) =
      ((audience rs event).filter (·.2 = i)).map fun x => ⟨x.1, x.2, event⟩ := by
    rw [hearingsOf, List.filter_map]
    rfl
  rw [hnumber, filter_audience h, List.map_map]
  cases hhears : r.hears event <;> simp [hhears]

theorem filter_flatMap_hearingsOf {i : Nat} (h : rs[i]? = some r) (events : List Event) :
    ((events.flatMap (hearingsOf rs)).filter (·.number = i)).map (·.event) =
      events.filter r.hears := by
  induction events with
  | nil => rfl
  | cons event events ih =>
    rw [List.flatMap_cons, List.filter_append, List.map_append, filter_hearingsOf h, ih,
      ← List.filter_append, List.singleton_append]

/-- What one listener hears: the events behind its registration that are for it, each once and in
order. -/
theorem filter_hearings {i : Nat} (h : rs[i]? = some r) :
    ((hearings rs).filter (·.number = i)).map (·.event) =
      ((rs.drop (i + 1)).flatMap events).filter r.hears := by
  induction rs using List.reverseRecOn with
  | nil => cases h
  | append_singleton rs last ih =>
    rw [hearings_concat, List.filter_append, List.map_append]
    by_cases hi : i < rs.length
    · rw [List.getElem?_append_left hi] at h
      rw [ih h, filter_flatMap_hearingsOf h, List.drop_append_of_le_length hi, List.flatMap_append,
        List.flatMap_singleton, List.filter_append]
    · -- the listener comes last, so nothing has been announced to it
      have hnone {hs : List (Hearing m)} (hhs : ∀ x ∈ hs, rs[x.number]? = some x.registration) :
          hs.filter (·.number = i) = [] := by
        refine List.filter_eq_nil_iff.2 fun x hx => ?_
        have hlt := (List.getElem?_eq_some_iff.1 (hhs x hx)).1
        simp only [decide_eq_true_eq]
        omega
      have hlast : (rs ++ [last]).drop (i + 1) = [] := by
        rw [List.drop_eq_nil_iff, List.length_append, List.length_singleton]
        omega
      rw [hnone fun x hx => getElem?_of_mem_hearings hx, hnone, hlast]
      · rfl
      · intro x hx
        obtain ⟨event, -, hx⟩ := List.mem_flatMap.1 hx
        obtain ⟨y, hy, rfl⟩ := List.mem_map.1 hx
        exact getElem?_of_mem_audience hy

/-! The listeners of an emitter are those that the requests have brought. -/

theorem registered_concat (rs : List (Request m)) (r : Request m) :
    registered (rs ++ [r]) = r.register (registered rs) := by
  rw [registered, List.foldl_append]
  rfl

section Registered

variable [Monad m]

theorem any_registered (rs : List (Request m)) :
    (registered rs).any = (rs.zipIdx.filter (·.1.isAny)).map (·.1.act) := by
  induction rs using List.reverseRecOn with
  | nil => rfl
  | append_singleton rs r ih =>
    rw [registered_concat, List.zipIdx_append, List.zipIdx_singleton, List.filter_append,
      List.map_append, ← ih]
    cases r with
    | onAny => rfl
    | on | emit | compile => simp [register, Emitter.on, isAny]

theorem specific_registered (rs : List (Request m)) (kind : EventKind) :
    ((registered rs).specific.filter (·.1 = kind)).map (·.2) =
      (rs.zipIdx.filter (·.1.isFor kind)).map (·.1.act) := by
  induction rs using List.reverseRecOn with
  | nil => rfl
  | append_singleton rs r ih =>
    rw [registered_concat, List.zipIdx_append, List.zipIdx_singleton, List.filter_append,
      List.map_append, ← ih]
    cases r with
    | onAny | emit | compile => simp [register, Emitter.onAny, isFor]
    | on k listener =>
      rw [register, Emitter.on, List.filter_append, List.map_append]
      refine congrArg (_ ++ ·) ?_
      by_cases hk : k = kind
      · subst hk
        simp only [isFor, decide_true, List.filter_cons_of_pos, List.filter_nil]
        rfl
      · simp [isFor, hk]

theorem audience_registered (rs : List (Request m)) (event : Event) :
    (registered rs).audience event = (audience rs event).map (·.1.act) := by
  rw [Emitter.audience, any_registered, specific_registered, audience, List.map_append]

variable [LawfulMonad m]

theorem emit_registered (rs : List (Request m)) (event : Event) :
    (registered rs).emit event = (hearingsOf rs event).forM fun h => h.registration.act h.event := by
  rw [Emitter.emit, audience_registered, hearingsOf]
  simp only [List.forM_eq_forM, List.forM_map]

theorem forM_emit_registered (rs : List (Request m)) (events : List Event) :
    events.forM (registered rs).emit =
      (events.flatMap (hearingsOf rs)).forM fun h => h.registration.act h.event := by
  induction events with
  | nil => rfl
  | cons event events ih =>
    simp only [List.forM_eq_forM] at ih
    rw [List.flatMap_cons, List.forM_eq_forM, List.forM_eq_forM, List.forM_cons, List.forM_append,
      ih, emit_registered, List.forM_eq_forM]

theorem perform_eq (e : Emitter m) (r : Request m) : r.perform e = do
    r.events.forM e.emit
    return r.register e := by
  cases r with
  | onAny | on | emit => simp [perform, events, register]
  | compile source =>
    simp only [perform, compileWith_announcements, events, eventsOf_eq, register, bind_assoc,
      pure_bind]

/-- Whatever the listeners do, all that comes of a list of requests is what they do when they hear
what there is to hear. -/
theorem performAll_eq (rs : List (Request m)) : performAll rs = do
    (hearings rs).forM fun h => h.registration.act h.event
    return registered rs := by
  induction rs using List.reverseRecOn with
  | nil => exact (pure_bind PUnit.unit fun _ => pure (registered [])).symm
  | append_singleton rs r ih =>
    have hlast (e : Emitter m) : [r].foldlM perform e = r.perform e := bind_pure (r.perform e)
    rw [performAll] at ih
    rw [performAll, List.foldlM_append, ih, bind_assoc]
    simp only [pure_bind, hlast]
    rw [perform_eq, forM_emit_registered, hearings_concat, List.forM_eq_forM, List.forM_append,
      bind_assoc, registered_concat]

end Registered

end Request

/-- All that comes of a list of requests is what its listeners do when they hear what is announced,
one hearing after the other. Each listener hears the events that are for it and that are announced
behind its registration, each once and in order. A compilation announces its beginning, its errors
up to the types, and its end. -/
theorem delivery [Monad m] [LawfulMonad m] (rs : List (Request m)) :
    (Request.performAll rs = do
      (Request.hearings rs).forM fun h => h.registration.act h.event
      return Request.registered rs) ∧
    (∀ h ∈ Request.hearings rs, rs[h.number]? = some h.registration) ∧
    (∀ i r, rs[i]? = some r →
      ((Request.hearings rs).filter (·.number = i)).map (·.event) =
        ((rs.drop (i + 1)).flatMap Request.events).filter r.hears) ∧
    ∀ (e : Emitter m) (source : String),
      (compileWith e source = do
        (eventsOf source).forM e.emit
        return compile source) ∧
      ∃ middle success,
        eventsOf source = .parsingStarted :: middle ++ [.parsingFinished success] ∧
        (success = true ↔
          (∃ p, compile source = .ok p) ∨ ∃ reports, compile source = .error (.types reports)) ∧
        (∀ errors, tokenize source = .error errors →
          middle = errors.map .lexicalError ∧ compile source = .error (.lexical errors)) ∧
        (∀ tokens error, tokenize source = .ok tokens → Program.ofTokens tokens = .error error →
          middle = [.syntaxError error] ∧ compile source = .error (.grammar error)) ∧
        ∀ tokens p, tokenize source = .ok tokens → Program.ofTokens tokens = .ok p → middle = [] := by
  refine ⟨Request.performAll_eq rs, fun _ => Request.getElem?_of_mem_hearings,
    fun _ _ => Request.filter_hearings,
    fun e source => ⟨?_, eventsOf_result source⟩⟩
  rw [compileWith_announcements, eventsOf_eq]

def recorder (name : Nat) (event : Event) : StateM (List (Nat × Event)) Unit :=
  modify (· ++ [(name, event)])

/-- The listener that comes first hears of the errors of both the text and the last request, the one
that comes last only of the latter. The one between them hears everything, and before the others. -/
def threeListeners : List (Request (StateM (List (Nat × Event)))) :=
  [.on .syntaxError (recorder 0), .onAny (recorder 1), .compile "si",
    .on .syntaxError (recorder 2), .emit (.syntaxError ⟨.endOfFile, [], ⟨1, 1⟩, none⟩)]

theorem delivery_threeListeners :
    ((Request.performAll threeListeners).run []).2 =
      let found : Event :=
        .syntaxError ⟨.keyword .si, ["variables", "procedimiento", "funcion"], ⟨1, 1⟩, none⟩
      let told : Event := .syntaxError ⟨.endOfFile, [], ⟨1, 1⟩, none⟩
      [(1, .parsingStarted), (1, found), (0, found), (1, .parsingFinished false),
        (1, told), (0, told), (2, told)] := by
  rw [(delivery threeListeners).1]
  decide +kernel

end Seudocodigo
