import FlowCheck.TypeDescriptor

/-! # Scopes

What one validation is about: the expressions in their order, each with its variables and the activity it
belongs to, and the namespaces and modules that all of them may use. -/

namespace FlowCheck

/-- A node of a workflow, which owns expressions. -/
structure Activity where
  id : String
  displayName : String
  deriving DecidableEq, Repr, Inhabited

/-- Variables and their types, the one declared last first. A variable hides those of its name after it. -/
structure Environment where
  bindings : List (String × TypeDescriptor)
  deriving Inhabited

namespace Environment

/-- No variables. -/
def empty : Environment := ⟨[]⟩

/-- One more variable, which hides any other of its name. -/
def declare (env : Environment) (name : String) (type : TypeDescriptor) : Environment :=
  ⟨(name, type) :: env.bindings⟩

/-- The type of the variable that a name stands for. -/
def resolve (env : Environment) (name : String) : Option TypeDescriptor := env.bindings.lookup name

end Environment

/-- What an expression is for. -/
inductive ExpressionKind where
  /-- It gives a value. -/
  | value
  /-- It names a place that can be assigned to. -/
  | reference
  deriving DecidableEq, Repr, Inhabited

/-- An expression to validate: its text, the type it should have and the variables it may use. -/
structure ExpressionUnit where
  id : String
  text : String
  resultType : TypeDescriptor
  environment : Environment
  kind : ExpressionKind
  activity : Activity
  deriving Inhabited

/-- A module that a scope asks for: the module itself, or a name for a loader to find it by. -/
inductive ModuleDeclaration where
  | loaded (module : Module)
  | named (name : String)
  deriving DecidableEq, Repr, Inhabited

/-- The values of a list, each at its first place. -/
def distinct {α : Type} [DecidableEq α] (xs : List α) : List α :=
  xs.foldl (fun kept x => if x ∈ kept then kept else kept ++ [x]) []

/-- What one validation is about. -/
structure ValidationScope where
  units : List ExpressionUnit
  namespaces : List String
  modules : List ModuleDeclaration
  deriving Inhabited

namespace ValidationScope

/-- Nothing to validate. -/
def empty : ValidationScope := ⟨[], [], []⟩

/-- One more expression, after the others. -/
def add (scope : ValidationScope) (unit : ExpressionUnit) : ValidationScope :=
  { scope with units := scope.units ++ [unit] }

/-- One more namespace, unless it is there. -/
def importNamespace (scope : ValidationScope) (ns : String) : ValidationScope :=
  if ns ∈ scope.namespaces then scope else { scope with namespaces := scope.namespaces ++ [ns] }

/-- One more module. -/
def declare (scope : ValidationScope) (declaration : ModuleDeclaration) : ValidationScope :=
  { scope with modules := scope.modules ++ [declaration] }

/-- The first expression of an id. -/
def find? (scope : ValidationScope) (id : String) : Option ExpressionUnit :=
  scope.units.find? (·.id == id)

end ValidationScope

end FlowCheck
