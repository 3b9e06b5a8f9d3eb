import FlowCheck.Assembly
import FlowCheck.Attribution
import FlowCheck.Batch
import FlowCheck.Config
import FlowCheck.Flow.Language
import FlowCheck.RequiredModules

/-! # Validation

All expressions of a scope are compiled at once, as a batch with a line for each, and what the compiler reports
is attributed back to them. Between validations only the required modules and the cache of references are kept. -/

namespace FlowCheck

/-- How expressions are validated. -/
structure Validator (Tree : Type) where
  language : Language Tree
  provider : ReferenceProvider
  config : Config
  loader : ModuleLoader
  curator : Curator

/-- What is kept between validations. -/
structure Session where
  cache : ReferenceCache
  required : RequiredModules
  deriving Inhabited

/-- No references and no required modules. -/
def Session.empty : Session := ⟨.empty, .empty⟩

/-- What comes of a validation: the errors or the fault that prevented it, and what the session and the scope
are afterwards. -/
structure Outcome where
  result : Except Fault (List ValidationError)
  session : Session
  scope : Option ValidationScope

namespace Validator

variable {Tree : Type}

/-- The module that a declaration asks for, if there is one of its name. -/
def declared? (v : Validator Tree) : ModuleDeclaration → Option Module
  | .loaded m => some m
  | .named name => v.loader name

/-- The modules that a scope is compiled with: the required ones, then those that it declares, each once. -/
def modules (v : Validator Tree) (required : RequiredModules) (scope : ValidationScope) : List Module :=
  distinct (required.members ++ scope.modules.filterMap v.declared?)

/-- Links what the result types of some expressions draw in and writes a line for each of them, the first one at
place `index`. A fault stops it; what was linked until then is kept. -/
def write (v : Validator Tree) : (index : Nat) → List ExpressionUnit → Assembly Tree → SourceWriter →
    Except Fault SourceWriter × Assembly Tree
  | _, [], a, w => (.ok w, a)
  | index, unit :: units, a, w =>
    let a := a.extend v.provider unit.resultType
    match unit.fragment v.language index with
    | .error fault => (.error fault, a)
    | .ok text => v.write (index + 1) units a (w.line text)

/-- Puts the batch of a scope together: its source, and the compilation without it. -/
def assemble (v : Validator Tree) (session : Session) (scope : ValidationScope) :
    Except Fault SourceWriter × Assembly Tree :=
  v.write 0 scope.units
    (.build v.provider session.cache (v.modules session.required scope) (v.config.namespacesWith scope.namespaces))
    .empty

/-- The diagnostics of a batch. -/
def compile (v : Validator Tree) (a : Assembly Tree) (source : String) : Except Fault (List Diagnostic) := do
  let a ← a.append v.language source
  v.language.diagnose a.compilation

/-- Validates the expressions of a scope. A scope that was validated is empty afterwards; one that could not be
validated stays as it is. -/
def validateScope (v : Validator Tree) (session : Session) (scope : ValidationScope) : Outcome :=
  let (written, a) := v.assemble session scope
  let session := { session with cache := a.cache }
  let result := do
    let source := (← written).finish
    let diagnostics ← v.compile a source
    return Attribution.errors v.language.marker v.curator diagnostics source scope
  ⟨result, session, some (match result with | .ok _ => .empty | .error _ => scope)⟩

/-- Validates the expressions of a scope, if there is one. -/
def validate (v : Validator Tree) (session : Session) : Option ValidationScope → Outcome
  | none => ⟨.ok [], session, none⟩
  | some scope => v.validateScope session scope

end Validator

end FlowCheck
