import FlowCheck.Proofs.Session
import FlowCheck.Proofs.Validation

/-! The order in which modules are linked. A batch of Flow asks for the required modules, for those that its scope
    declares and for those that the types of its results draw in, each at its first occurrence. -/

namespace FlowCheck.Validator

variable (provider : ReferenceProvider) (config : Config) (loader : ModuleLoader) (curator : Curator)

/-- The modules that a batch needs, as often as they are met: those that were required in a history, then those
that the scope declares and that are found, then for each expression those that the type of its result draws in. -/
def needed (history : List Operation) (scope : ValidationScope) : List Module :=
  history.filterMap Operation.required? ++ scope.modules.filterMap (plain provider config loader curator).declared? ++
    scope.units.flatMap fun unit => unit.resultType.drawnIn

/-- What a batch is compiled with comes from the modules that are required or declared and from those that the types
of its results draw in. -/
theorem assembled_of {session : Session} (h : session.cache.Faithful provider) (scope : ValidationScope) :
    (assembled provider config loader curator session scope).Of provider session.cache
      (config.namespacesWith scope.namespaces) ((plain provider config loader curator).modules session.required scope ++
        scope.units.flatMap fun unit => unit.resultType.drawnIn) := by
  let modules := (plain provider config loader curator).modules session.required scope
  have hbuild : (Assembly.build provider session.cache modules (config.namespacesWith scope.namespaces) :
      Assembly Flow.SourceTree).Of provider session.cache (config.namespacesWith scope.namespaces) modules :=
    Assembly.of_build h _ _
  have hall := hbuild.extendAll (scope.units.map (·.resultType))
  rwa [List.flatMap_map] at hall

theorem assembled_run (history : List Operation) (scope : ValidationScope) :
    let session := (plain provider config loader curator).run history
    (assembled provider config loader curator session scope).Of provider session.cache
      (config.namespacesWith scope.namespaces) (needed provider config loader curator history scope) := by
  intro session
  have hmembers : session.required.members = distinct (history.filterMap Operation.required?) := by
    rw [← RequiredModules.members_ofList, ← required_run]
  -- The required modules come without repetitions, but `distinct` goes over them once more.
  have hneeded : distinct ((plain provider config loader curator).modules session.required scope ++
      scope.units.flatMap fun unit => unit.resultType.drawnIn) =
        distinct (needed provider config loader curator history scope) := by
    rw [modules, hmembers, distinct_distinct_append, needed, List.append_assoc, List.append_assoc,
      distinct_distinct_append]
  have hfaithful : session.cache.Faithful provider := (plain provider config loader curator).faithful_run history
  obtain ⟨hoffered, hcache, hcompilation⟩ := assembled_of provider config loader curator hfaithful scope
  rw [hneeded] at hoffered hcache hcompilation
  exact ⟨hoffered, hcache, hcompilation⟩

/-- A batch asks the provider what a module carries only at the first occurrence of the module, and only if it was
not kept. What is linked are the references that can be had, in the order of these occurrences; of several that a
provider gives for one owner the first is linked. -/
theorem linked_in_order (history : List Operation) (scope : ValidationScope) :
    let v := plain provider config loader curator
    let session := v.run history
    let modules := distinct (needed provider config loader curator history scope)
    let compilation := (v.assemble session scope).2.compilation
    modules.Nodup ∧
      (∃ asked, (v.validate session (some scope)).session.cache.requests = session.cache.requests ++ asked ∧
        (asked.filter (·.source == .metadata)).map (·.module) = modules.filter (!session.cache.contains ·)) ∧
      compilation = .new (modules.filterMap provider.reference?) (config.namespacesWith scope.namespaces) ∧
      (compilation.references.map (·.owner)).Nodup ∧
      (provider.Owning → compilation.references = modules.filterMap provider.reference? ∧
        compilation.references.map (·.owner) = modules.filter fun m => (provider.reference? m).isSome) := by
  intro v session modules compilation
  have hof := assembled_run provider config loader curator history scope
  have hassemble : v.assemble session scope = _ := assemble_plain provider config loader curator session scope
  have hnew : compilation = .new (modules.filterMap provider.reference?) (config.namespacesWith scope.namespaces) := by
    exact (congrArg (·.2.compilation) hassemble).trans hof.compilation
  have hrequests : (v.validate session (some scope)).session.cache =
      (assembled provider config loader curator session scope).cache := by
    rw [validate, validateScope, hassemble]
  have hnodup : modules.Nodup := nodup_distinct _
  refine ⟨hnodup, ⟨_, hrequests ▸ hof.cache.requests, provider.metadata_questions _⟩, hnew, ?_, fun howning => ?_⟩
  · exact hnew ▸ Compilation.nodup_owners _ _
  · have hreferences : compilation.references = modules.filterMap provider.reference? :=
      (congrArg (·.2.compilation.references) hassemble).trans (congrArg (·.references) (hof.compilation_eq howning))
    exact ⟨hreferences, hreferences ▸ howning.owners modules⟩

/-- One module is required twice and one is declared twice and met again in a type; a third has no reference, and
nothing is found for a name. -/
theorem linked_in_order_repeated :
    let core := Flow.coreModule 0
    let orders : Module := ⟨1, "Orders", .dynamic, some [{ name := "Orders.Order" }], none⟩
    let hollow : Module := ⟨2, "Orders", .static, none, none⟩
    let history : List Operation := [.require core, .lookUp hollow, .require core]
    let order : TypeDescriptor := .ofFullName "Orders.Order" orders (some (.ofFullName "Core.Object" core none [])) []
    let scope : ValidationScope := ⟨[{ ExpressionUnit.ofText "e" "null" "Core.Int" with resultType := order }], [],
      [.loaded hollow, .named "Gone", .loaded orders, .loaded orders]⟩
    (ReferenceProvider.exportTables fun _ => none).Owning ∧
      ((bare.assemble (bare.run history) scope).2.compilation.references.map (·.owner)) = [core, orders] := by
  intro core orders hollow history order scope
  have howning := owning_exportTables fun _ => none
  obtain ⟨-, -, -, -, hall⟩ :=
    linked_in_order (.exportTables fun _ => none) .default (fun _ => none) .keepAll history scope
  refine ⟨howning, (hall howning).2.trans ?_⟩
  decide +kernel

end FlowCheck.Validator
