import FlowCheck.Module

/-! # Required modules

The modules that every validation links, each once, in the order in which they were added. -/

namespace FlowCheck

/-- Modules, each once. -/
structure RequiredModules where
  members : List Module
  nodup : members.Nodup
  deriving Repr

namespace RequiredModules

/-- No modules. -/
def empty : RequiredModules := ⟨[], List.nodup_nil⟩

instance : Inhabited RequiredModules := ⟨empty⟩

/-- One more module, unless it is there. -/
def add (set : RequiredModules) (m : Module) : RequiredModules :=
  if h : m ∈ set.members then set
  else ⟨set.members ++ [m], by
    rw [List.nodup_append]
    refine ⟨set.nodup, by simp, ?_⟩
    intro a ha b hb e
    rw [List.mem_singleton] at hb
    exact h (hb ▸ e ▸ ha)⟩

/-- Some modules, each at its first place. -/
def ofList (modules : List Module) : RequiredModules := modules.foldl add empty

end RequiredModules

end FlowCheck
