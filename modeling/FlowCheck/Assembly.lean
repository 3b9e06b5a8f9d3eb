import FlowCheck.Language
import FlowCheck.ReferenceCache

/-! # Assembling a compilation

For each validation one compilation is put together. A module is offered to it at most once; offered, it is
linked if a reference to it can be had. -/

namespace FlowCheck

/-- A compilation on the way, the modules that were offered to it, and the cache that references come from. -/
structure Assembly (Tree : Type) where
  offered : List Module
  cache : ReferenceCache
  compilation : Compilation Tree
  deriving Inhabited

/-- References for those of some modules that were not offered before, the modules offered so far, and the cache. -/
structure Offer where
  references : List Reference
  offered : List Module
  cache : ReferenceCache
  deriving Inhabited

namespace Offer

/-- Offers one more module. -/
def next (provider : ReferenceProvider) (o : Offer) (m : Module) : Offer :=
  if m ∈ o.offered then o
  else
    let got := o.cache.getOrCreate provider m
    ⟨o.references ++ got.1.toList, o.offered ++ [m], got.2⟩

/-- Offers some modules, one after the other. -/
def all (provider : ReferenceProvider) (offered : List Module) (cache : ReferenceCache) (ms : List Module) : Offer :=
  ms.foldl (next provider) ⟨[], offered, cache⟩

end Offer

namespace Assembly

/-- A compilation over some modules and namespaces. -/
def build {Tree : Type} (provider : ReferenceProvider) (cache : ReferenceCache) (modules : List Module)
    (namespaces : List String) : Assembly Tree :=
  let offer := Offer.all provider [] cache modules
  ⟨offer.offered, offer.cache, .new offer.references namespaces⟩

/-- Links what the use of a type draws in. -/
def extend {Tree : Type} (provider : ReferenceProvider) (a : Assembly Tree) (type : TypeDescriptor) : Assembly Tree :=
  let offer := Offer.all provider a.offered a.cache (type.reachable.map (·.owner))
  ⟨offer.offered, offer.cache, a.compilation.linkAll offer.references⟩

/-- Reads a batch and adds it. -/
def append {Tree : Type} (language : Language Tree) (a : Assembly Tree) (source : String) :
    Except Fault (Assembly Tree) :=
  (language.parse source).map fun tree => { a with compilation := a.compilation.addTree tree }

end Assembly

end FlowCheck
