import FlowCheck.Proofs.Offering

/-! What is linked. A compilation links the references that can be had for the modules that are offered to it, in the
    order of their first occurrences, and nothing else; it does not matter what the cache keeps. -/

namespace FlowCheck

variable {files : Files} {m : Module} {r : Reference}

/-! ### References -/

/-- The reference that a module has. -/
def Reference.of? (files : Files) (m : Module) : Option Reference := (ReferenceCache.produce (.exportTables files) m).1

theorem Reference.of?_eq_reference? (files : Files) (m : Module) :
    of? files m = (ReferenceProvider.exportTables files).reference? m := by
  rw [of?, ReferenceProvider.produce_eq]

theorem Reference.of?_eq : of? files m = (fromMetadata m).toOption.or (fromFile files m).toOption :=
  of?_eq_reference? files m

theorem Reference.owner_of (h : of? files m = some r) : r.owner = m := by
  rw [of?_eq, Option.or_eq_some_iff] at h
  rcases h with h | ⟨-, h⟩
  · unfold fromMetadata at h
    split at h
    · cases h; rfl
    · cases h
  · unfold fromFile at h
    split at h
    · cases h
    · split at h
      · cases h; rfl
      · cases h

/-- The reference is the one that its module has. -/
def Reference.Genuine (files : Files) (r : Reference) : Prop := of? files r.owner = some r

theorem Reference.genuine_of (h : of? files m = some r) : r.Genuine files := by
  rw [Genuine, owner_of h, h]

theorem owning_exportTables (files : Files) : (ReferenceProvider.exportTables files).Owning := fun m _ h =>
  Reference.owner_of ((Reference.of?_eq_reference? files m).trans h)

/-- What is kept for a module is the reference that it has. -/
def ReferenceCache.Sound (files : Files) (cache : ReferenceCache) : Prop :=
  ∀ m r, cache.find? m = some r → Reference.of? files m = some r

theorem ReferenceCache.sound_empty : empty.Sound files := nofun

theorem ReferenceCache.Sound.faithful {cache : ReferenceCache} (h : cache.Sound files) :
    cache.Faithful (.exportTables files) := fun m r hr =>
  (Reference.of?_eq_reference? files m).symm.trans (h m r hr)

/-! ### Linking -/

theorem Compilation.linkAll_new {Tree : Type} (rs more : List Reference) (namespaces : List String) :
    (new rs namespaces : Compilation Tree).linkAll more = new (rs ++ more) namespaces := by
  rw [new, new, linkAll, linkAll, linkAll, List.foldl_append]

/-- No module is linked twice. -/
theorem Compilation.nodup_owners {Tree : Type} (rs : List Reference) (namespaces : List String) :
    ((new rs namespaces : Compilation Tree).references.map (·.owner)).Nodup := by
  induction rs using List.reverseRecOn with
  | nil => exact List.nodup_nil
  | append_singleton rs r ih =>
    rw [← linkAll_new, linkAll, List.foldl_cons, List.foldl_nil, link]
    split
    · exact ih
    · rename_i hr
      rw [List.map_append]
      exact List.concat_eq_append ▸ List.Nodup.concat hr ih

/-- References to different modules are all linked. -/
theorem Compilation.new_of_nodup {Tree : Type} {rs : List Reference} (h : (rs.map (·.owner)).Nodup)
    (namespaces : List String) : (new rs namespaces : Compilation Tree) = ⟨rs, namespaces, []⟩ := by
  induction rs using List.reverseRecOn with
  | nil => rfl
  | append_singleton rs r ih =>
    rw [List.map_append] at h
    obtain ⟨hrs, -, hne⟩ := List.nodup_append.mp h
    rw [← linkAll_new, linkAll, List.foldl_cons, List.foldl_nil, ih hrs, link,
      if_neg fun hr => hne r.owner hr r.owner (.head _) rfl]

/-! ### Assembling -/

/-- The modules that a type draws in, as they are met. -/
def TypeDescriptor.drawnIn (type : TypeDescriptor) : List Module := type.reachable.map (·.owner)

/-- The assembly after some modules were offered, in this order and perhaps repeatedly: the compilation is over the
references that can be had for them. -/
structure Assembly.Of {Tree : Type} (provider : ReferenceProvider) (start : ReferenceCache) (namespaces : List String)
    (ms : List Module) (a : Assembly Tree) : Prop where
  offered : a.offered = distinct ms
  cache : a.cache.After provider start (distinct ms)
  compilation : a.compilation = .new ((distinct ms).filterMap provider.reference?) namespaces

namespace Assembly

variable {Tree : Type} {provider : ReferenceProvider} {start : ReferenceCache} {namespaces : List String}
  {ms : List Module} {a : Assembly Tree}

/-- Offers some modules and links what is new. -/
def offer (provider : ReferenceProvider) (a : Assembly Tree) (ms : List Module) : Assembly Tree :=
  let offer := Offer.all provider a.offered a.cache ms
  ⟨offer.offered, offer.cache, a.compilation.linkAll offer.references⟩

theorem Of.offer (h : a.Of provider start namespaces ms) (more : List Module) :
    (a.offer provider more).Of provider start namespaces (ms ++ more) := by
  have hoffer := Offer.Of.all h.cache more
  obtain ⟨new, hnew, hreferences⟩ := hoffer.references
  rw [Assembly.offer, h.offered]
  refine ⟨hoffer.offered, hoffer.offered ▸ hoffer.cache, ?_⟩
  rw [h.compilation, hreferences, Compilation.linkAll_new, ← List.filterMap_append, ← hnew, hoffer.offered]

theorem of_build (h : start.Faithful provider) (modules : List Module) (namespaces : List String) :
    (build provider start modules namespaces : Assembly Tree).Of provider start namespaces modules := by
  have hstart : (⟨[], start, ⟨[], namespaces, []⟩⟩ : Assembly Tree).Of provider start namespaces [] :=
    ⟨rfl, .nil h, rfl⟩
  exact hstart.offer modules

theorem Of.extend (h : a.Of provider start namespaces ms) (type : TypeDescriptor) :
    (a.extend provider type).Of provider start namespaces (ms ++ type.drawnIn) := h.offer _

theorem Of.extendAll (h : a.Of provider start namespaces ms) (types : List TypeDescriptor) :
    (types.foldl (Assembly.extend provider) a).Of provider start namespaces
      (ms ++ types.flatMap TypeDescriptor.drawnIn) := by
  induction types generalizing ms a with
  | nil => simpa using h
  | cons type types ih => simpa using ih (h.extend type)

/-- If every reference is one to the module that it was made for, none is left out. -/
theorem Of.compilation_eq (h : a.Of provider start namespaces ms) (howning : provider.Owning) :
    a.compilation = ⟨(distinct ms).filterMap provider.reference?, namespaces, []⟩ := by
  have howners : (((distinct ms).filterMap provider.reference?).map (·.owner)).Nodup :=
    howning.owners _ ▸ (nodup_distinct ms).filter _
  rw [h.compilation, Compilation.new_of_nodup howners]

end Assembly

end FlowCheck
