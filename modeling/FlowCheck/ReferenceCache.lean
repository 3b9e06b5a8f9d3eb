import FlowCheck.Reference

/-! # The reference cache

References that were produced, by module. A reference to a static module is kept; one to any other module is
produced anew each time it is wanted. The cache also remembers what the provider was asked for. -/

namespace FlowCheck

/-- A question to the provider: one module, one way. -/
structure Request where
  module : Module
  source : ReferenceSource
  deriving DecidableEq, Repr, Inhabited

/-- References by module, and the questions that were asked for them, in their order. -/
structure ReferenceCache where
  entries : List (Module × Reference)
  requests : List Request
  deriving Repr, Inhabited

namespace ReferenceCache

/-- No references. -/
def empty : ReferenceCache := ⟨[], []⟩

/-- The reference kept for a module. -/
def find? (cache : ReferenceCache) (m : Module) : Option Reference := cache.entries.lookup m

/-- A reference is kept for a module. -/
def contains (cache : ReferenceCache) (m : Module) : Bool := (cache.find? m).isSome

/-- The number of modules with a reference. -/
def size (cache : ReferenceCache) : Nat := cache.entries.length

/-- The reference that the provider gives for a module, and what it is asked for it: first what the module
carries, then, if that fails, its file. -/
def produce (provider : ReferenceProvider) (m : Module) : Option Reference × List Request :=
  match provider.fromMetadata m with
  | .ok r => (some r, [⟨m, .metadata⟩])
  | .error _ =>
    let asked := [⟨m, .metadata⟩, ⟨m, .file⟩]
    match provider.fromFile m with
    | .ok r => (some r, asked)
    | .error _ => (none, asked)

/-- The reference for a module, from the cache or else from the provider, and the cache afterwards. -/
def getOrCreate (provider : ReferenceProvider) (cache : ReferenceCache) (m : Module) :
    Option Reference × ReferenceCache :=
  match cache.find? m with
  | some r => (some r, cache)
  | none =>
    let produced := produce provider m
    let asked := { cache with requests := cache.requests ++ produced.2 }
    match produced.1 with
    | none => (none, asked)
    | some r =>
      (some r, if m.isCacheable then { asked with entries := asked.entries ++ [(m, r)] } else asked)

end ReferenceCache

end FlowCheck
