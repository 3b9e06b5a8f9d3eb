import FlowCheck.Reference

/-! # Compilations

What a compiler is given: the references that are linked, the namespaces that are imported, and the trees to
compile. -/

namespace FlowCheck

/-- What a compiler is given. -/
structure Compilation (Tree : Type) where
  references : List Reference
  namespaces : List String
  trees : List Tree
  deriving Inhabited

namespace Compilation

/-- Links one more reference, unless its module is linked. -/
def link {Tree : Type} (c : Compilation Tree) (r : Reference) : Compilation Tree :=
  if r.owner ∈ c.references.map (·.owner) then c else { c with references := c.references ++ [r] }

/-- Links some more references. -/
def linkAll {Tree : Type} (c : Compilation Tree) (rs : List Reference) : Compilation Tree := rs.foldl link c

/-- A compilation of nothing yet. -/
def new {Tree : Type} (references : List Reference) (namespaces : List String) : Compilation Tree :=
  linkAll ⟨[], namespaces, []⟩ references

/-- One more tree to compile. -/
def addTree {Tree : Type} (c : Compilation Tree) (tree : Tree) : Compilation Tree :=
  { c with trees := c.trees ++ [tree] }

end Compilation

end FlowCheck
