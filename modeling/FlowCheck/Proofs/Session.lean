import FlowCheck.Proofs.Assembly
import FlowCheck.Validator

/-! What a session remembers. Whatever has been done with a validator, what it keeps for a module is what its
    provider gives for it. So the history of a session shows in what the provider is asked, and in no result. -/

namespace FlowCheck

/-! ### Histories -/

/-- What can be done with a validator. -/
inductive Operation where
  /-- A validation, which may fail. -/
  | validate (scope : Option ValidationScope)
  /-- One more module is required. -/
  | require (m : Module)
  /-- The reference for a module is taken from the cache. -/
  | lookUp (m : Module)

/-- The module that an operation makes a required one. -/
def Operation.required? : Operation → Option Module
  | .require m => some m
  | _ => none

namespace Validator

variable {Tree : Type} (v : Validator Tree)

/-- The session after one more operation. -/
def operate (session : Session) : Operation → Session
  | .validate scope => (v.validate session scope).session
  | .require m => { session with required := session.required.add m }
  | .lookUp m => { session with cache := (session.cache.getOrCreate v.provider m).2 }

/-- The session after some operations on a new validator. -/
def run (history : List Operation) : Session := history.foldl v.operate .empty

/-! ### One validation -/

/-- What is written for some expressions, and how many of them are reached, does not depend on the assembly. -/
theorem write_of (namespaces : List String) (k : Nat) (units : List ExpressionUnit) (w : SourceWriter) :
    ∃ (written : Except Fault SourceWriter) (reached : List ExpressionUnit), ∀ (start : ReferenceCache)
      (ms : List Module) (a : Assembly Tree), a.Of v.provider start namespaces ms →
        (v.write k units a w).1 = written ∧ (v.write k units a w).2.Of v.provider start namespaces
          (ms ++ reached.flatMap fun unit => unit.resultType.drawnIn) := by
  induction units generalizing k w with
  | nil => exact ⟨.ok w, [], fun _ ms _ h => ⟨rfl, by simpa [write] using h⟩⟩
  | cons unit units ih =>
    cases hfragment : unit.fragment v.language k with
    | error fault =>
      refine ⟨.error fault, [unit], fun start ms a h => ?_⟩
      rw [write, hfragment]
      exact ⟨rfl, by simpa using h.extend unit.resultType⟩
    | ok text =>
      obtain ⟨written, reached, hall⟩ := ih (k + 1) (w.line text)
      refine ⟨written, unit :: reached, fun start ms a h => ?_⟩
      rw [write, hfragment]
      simpa using hall start _ _ (h.extend unit.resultType)

theorem assemble_of (required : RequiredModules) (scope : ValidationScope) :
    ∃ (written : Except Fault SourceWriter) (ms : List Module), ∀ cache : ReferenceCache, cache.Faithful v.provider →
      (v.assemble ⟨cache, required⟩ scope).1 = written ∧ (v.assemble ⟨cache, required⟩ scope).2.Of v.provider cache
        (v.config.namespacesWith scope.namespaces) ms := by
  obtain ⟨written, reached, hall⟩ := v.write_of (v.config.namespacesWith scope.namespaces) 0 scope.units .empty
  exact ⟨written, _, fun cache h => hall cache (v.modules required scope) _ (Assembly.of_build h _ _)⟩

/-- Compiling looks at nothing else of an assembly. -/
theorem compile_congr {a b : Assembly Tree} (h : a.compilation = b.compilation) (source : String) :
    v.compile a source = v.compile b source := by
  simp only [compile, Assembly.append, h]
  cases v.language.parse source <;> rfl

theorem scope_congr {a b : Session} {scope : Option ValidationScope}
    (h : (v.validate a scope).result = (v.validate b scope).result) :
    (v.validate a scope).scope = (v.validate b scope).scope := by
  cases scope with
  | none => rfl
  | some scope =>
    dsimp only [validate, validateScope] at h ⊢
    rw [h]

/-- The result of a validation, and the modules that the cache is asked for, do not depend on the cache. -/
theorem validate_of (required : RequiredModules) (scope : Option ValidationScope) :
    ∃ (result : Except Fault (List ValidationError)) (ms : List Module),
      ∀ cache : ReferenceCache, cache.Faithful v.provider →
        (v.validate ⟨cache, required⟩ scope).result = result ∧
          (v.validate ⟨cache, required⟩ scope).session.required = required ∧
          (v.validate ⟨cache, required⟩ scope).session.cache.After v.provider cache ms := by
  cases scope with
  | none => exact ⟨.ok [], [], fun cache h => ⟨rfl, rfl, .nil h⟩⟩
  | some scope =>
    obtain ⟨written, ms, hall⟩ := v.assemble_of required scope
    let namespaces := v.config.namespacesWith scope.namespaces
    let compilation : Compilation Tree := .new ((distinct ms).filterMap v.provider.reference?) namespaces
    -- The assembly of every cache has this compilation, and nothing else of an assembly is compiled.
    let result : Except Fault (List ValidationError) := do
      let source := (← written).finish
      let diagnostics ← v.compile ⟨[], .empty, compilation⟩ source
      return Attribution.errors v.language.marker v.curator diagnostics source scope
    refine ⟨result, distinct ms, fun cache h => ?_⟩
    obtain ⟨hwritten, hof⟩ := hall cache h
    have hcompile := v.compile_congr (b := ⟨[], .empty, compilation⟩) hof.compilation
    have hresult : (v.validate ⟨cache, required⟩ (some scope)).result = result := by
      simp only [validate, validateScope, hwritten, hcompile, result]
    exact ⟨hresult, rfl, hof.cache⟩

/-! ### Many operations -/

theorem run_snoc (history : List Operation) (op : Operation) :
    v.run (history ++ [op]) = v.operate (v.run history) op := List.foldl_append

theorem faithful_operate {session : Session} (h : session.cache.Faithful v.provider) (op : Operation) :
    (v.operate session op).cache.Faithful v.provider := by
  cases op with
  | validate scope =>
    obtain ⟨_, _, hall⟩ := v.validate_of session.required scope
    exact (hall session.cache h).2.2.faithful
  | require m => exact h
  | lookUp m => exact ((ReferenceCache.After.nil h).getOrCreate List.not_mem_nil).2.faithful

theorem faithful_run (history : List Operation) : (v.run history).cache.Faithful v.provider := by
  induction history using List.reverseRecOn with
  | nil => exact ReferenceCache.faithful_empty
  | append_singleton history op ih => exact v.run_snoc history op ▸ v.faithful_operate ih op

theorem required_operate (session : Session) (op : Operation) :
    (v.operate session op).required = op.required?.elim session.required session.required.add := by
  cases op with
  | validate scope => cases scope <;> rfl
  | require m => rfl
  | lookUp m => rfl

/-- The required modules are those that were added, in the order in which they were added first. -/
theorem required_run (history : List Operation) :
    (v.run history).required = .ofList (history.filterMap Operation.required?) := by
  induction history using List.reverseRecOn with
  | nil => rfl
  | append_singleton history op ih =>
    rw [run_snoc, required_operate, ih, List.filterMap_append, List.filterMap_cons, List.filterMap_nil]
    cases op.required? with
    | none => rw [List.append_nil]; rfl
    | some m => exact (RequiredModules.ofList_snoc _ m).symm

/-! ### Results -/

/-- The references that a compilation is given for a scope: those of its modules, and then for each expression in
turn those that the type of its result draws in. -/
def given (session : Session) (scope : ValidationScope) : List (List Reference) :=
  Offer.portions v.provider [] session.cache
    (v.modules session.required scope :: scope.units.map fun unit => unit.resultType.drawnIn)

/-- After any history a validation gives what it gives with a new validator that has the same required modules. All
that a compilation is given is the same, and no question is asked of the provider that would not be asked then:
the questions about the modules that are kept are left out. -/
theorem validate_as_fresh (history : List Operation) (scope : Option ValidationScope) :
    let session := v.run history
    let fresh : Session := ⟨.empty, .ofList (history.filterMap Operation.required?)⟩
    (v.validate session scope).result = (v.validate fresh scope).result ∧
      (v.validate session scope).scope = (v.validate fresh scope).scope ∧
      (v.validate session scope).session.required = (v.validate fresh scope).session.required ∧
      (∀ s ∈ scope, v.given session s = v.given fresh s) ∧
      (v.validate session scope).session.cache.requests = session.cache.requests ++
        (v.validate fresh scope).session.cache.requests.filter (!session.cache.contains ·.module) := by
  intro session fresh
  obtain ⟨result, ms, hall⟩ := v.validate_of fresh.required scope
  obtain ⟨hresult, hrequired, hafter⟩ := hall session.cache (v.faithful_run history)
  obtain ⟨hresult', hrequired', hafter'⟩ := hall .empty ReferenceCache.faithful_empty
  have hsession : session = ⟨session.cache, fresh.required⟩ := congrArg (Session.mk _) (v.required_run history)
  have hfresh : fresh = ⟨.empty, fresh.required⟩ := rfl
  rw [← hsession] at hresult hrequired hafter
  rw [← hfresh] at hresult' hrequired' hafter'
  have hsame : (v.validate session scope).result = (v.validate fresh scope).result := hresult.trans hresult'.symm
  refine ⟨hsame, v.scope_congr hsame, hrequired.trans hrequired'.symm, fun s _ => ?_, ?_⟩
  · have hkept : session.cache.After v.provider session.cache (distinct []) := .nil (v.faithful_run history)
    have hempty : ReferenceCache.empty.After v.provider .empty (distinct []) := .nil ReferenceCache.faithful_empty
    rw [given, given, hsession]
    exact Offer.portions_eq hkept hempty _
  · have hfilter := v.provider.filter_questions (!session.cache.contains ·) ms
    rw [hafter.requests, hafter'.requests, ← hfilter]
    simp [ReferenceCache.empty, ReferenceCache.contains, ReferenceCache.find?]

end Validator

end FlowCheck
