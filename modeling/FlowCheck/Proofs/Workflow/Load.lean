import FlowCheck.Flow.Language
import FlowCheck.Proofs.Assembly
import FlowCheck.Workflow.Load

/-! What the modules of a document export. If nothing is wrong with the modules, the types that the document may use
    are those of the references that its modules and the core module have, in the order of the document. -/

namespace FlowCheck

/-! ### Types of references -/

/-- The types of some references, with their owners. -/
def entriesOf (rs : List Reference) : List (Module × TypeExport) := rs.flatMap fun r => r.exports.map (r.owner, ·)

/-- The type that a reference has under a name. -/
def Reference.find? (r : Reference) (name : String) : Option TypeExport := r.exports.find? (·.name == name)

theorem Reference.find?_block (r : Reference) (name : String) :
    (r.exports.map (r.owner, ·)).find? (·.2.name == name) = (r.find? name).map (r.owner, ·) := by
  rw [List.find?_map]
  rfl

/-- The first reference that has a name owns it. -/
theorem find?_entriesOf {rs : List Reference} {name : String} {owner : Module} {e : TypeExport} :
    (entriesOf rs).find? (·.2.name == name) = some (owner, e) ↔ ∃ front r back, rs = front ++ r :: back ∧
      r.owner = owner ∧ r.find? name = some e ∧ ∀ s ∈ front, s.find? name = none := by
  simp only [entriesOf, List.find?_flatMap, Reference.find?_block, List.findSome?_eq_some_iff, Option.map_eq_none_iff,
    Option.map_eq_some_iff, Prod.mk.injEq]
  constructor
  · rintro ⟨front, r, back, hrs, ⟨e, he, howner, rfl⟩, hfront⟩
    exact ⟨front, r, back, hrs, howner, he, hfront⟩
  · rintro ⟨front, r, back, hrs, howner, he, hfront⟩
    exact ⟨front, r, back, hrs, ⟨e, he, howner, rfl⟩, hfront⟩

theorem find?_entriesOf_eq_none {rs : List Reference} {name : String} :
    (entriesOf rs).find? (·.2.name == name) = none ↔ ∀ r ∈ rs, r.find? name = none := by
  simp only [entriesOf, Reference.find?_block, List.find?_flatMap, List.findSome?_eq_none_iff, Option.map_eq_none_iff]

/-- The types of the table are those of references that modules have. -/
def ExportTable.Genuine (files : Files) (table : ExportTable) : Prop :=
  ∃ rs, (∀ r ∈ rs, r.Genuine files) ∧ table.entries = entriesOf rs

namespace Workflow

variable {files : Files}

/-! ### Modules -/

/-- A module of a document under an id. -/
def ModuleSpec.toModule (spec : ModuleSpec × Nat) : Module :=
  ⟨spec.2, spec.1.name, spec.1.kind, spec.1.exports, spec.1.location⟩

/-- The module has its exports with it, or a file that can be read as exports. -/
def ModuleSpec.HasExports (files : Files) (spec : ModuleSpec) : Prop :=
  spec.exports.isSome ∨
    ∃ path ∈ spec.location, ((files path).bind fun text => (Json.read? text).bind Json.exportFile?).isSome

theorem hasExports_iff {spec : ModuleSpec × Nat} :
    spec.1.HasExports files ↔ (Reference.of? files (ModuleSpec.toModule spec)).isSome := by
  obtain ⟨⟨name, kind, exports, location⟩, id⟩ := spec
  rw [Reference.of?_eq, Option.isSome_or, Bool.or_eq_true, ModuleSpec.HasExports]
  refine or_congr ?_ ?_
  · cases exports <;> simp [Reference.fromMetadata, ModuleSpec.toModule, Except.toOption]
  · cases location with
    | none => simp [Reference.fromFile, ModuleSpec.toModule, Except.toOption]
    | some path =>
      simp only [Reference.fromFile, ModuleSpec.toModule, Option.mem_def, Option.some.injEq, exists_eq_left']
      cases (files path).bind fun text => (Json.read? text).bind Json.exportFile? <;> simp [Except.toOption]

theorem reference_of_exports {m : Module} {exports : List TypeExport} (h : m.exports = some exports) :
    Reference.of? files m = some ⟨m, m.name, exports, .metadata⟩ := by
  rw [Reference.of?_eq, Reference.fromMetadata, h]
  rfl

theorem reference_of_file {m : Module} {r : Reference} (h : m.exports = none)
    (hr : Reference.fromFile files m = .ok r) : Reference.of? files m = some r := by
  rw [Reference.of?_eq, Reference.fromMetadata, h, hr]
  rfl

namespace ModulesRead

/-- The modules that were read so far: of those with an exports table, or with a file of one, what they export is
added. -/
structure Of (files : Files) (start : ExportTable) (specs : List (ModuleSpec × Nat)) (r : ModulesRead) : Prop where
  names : ∀ name, name ∈ r.names ↔ name ∈ specs.map (·.1.name)
  defects : r.defects = [] ↔ (specs.map (·.1.name)).Nodup ∧ ∀ spec ∈ specs, spec.1.HasExports files
  table : r.defects = [] → r.table = ⟨start.entries ++ entriesOf ((specs.map ModuleSpec.toModule).filterMap
    (Reference.of? files)), start.namespaces⟩

variable {start : ExportTable} {specs : List (ModuleSpec × Nat)} {r : ModulesRead}

/-- A module is taken with the exports of its reference. One without a reference, or whose name is taken, is refused. -/
theorem next_cases (files : Files) (r : ModulesRead) (spec : ModuleSpec × Nat) :
    let named : ModulesRead := { r with names := r.names ++ [spec.1.name] }
    (spec.1.name ∈ r.names ∧ ∃ defect, r.next files spec = r.reject defect) ∨
      (spec.1.name ∉ r.names ∧ ∃ reference, Reference.of? files (ModuleSpec.toModule spec) = some reference ∧
        r.next files spec = named.accept (ModuleSpec.toModule spec) reference.exports) ∨
      (spec.1.name ∉ r.names ∧ Reference.of? files (ModuleSpec.toModule spec) = none ∧
        ∃ defect, r.next files spec = named.reject defect) := by
  obtain ⟨⟨name, kind, exports, location⟩, id⟩ := spec
  unfold next
  dsimp only
  split
  · rename_i hname
    exact .inl ⟨hname, _, rfl⟩
  · rename_i hname
    refine .inr ?_
    split
    · exact .inl ⟨hname, _, reference_of_exports rfl, rfl⟩
    · split
      · rename_i reference hfile
        exact .inl ⟨hname, reference, reference_of_file rfl hfile, rfl⟩
      · rename_i hfile
        refine .inr ⟨hname, ?_, _, rfl⟩
        simp [Reference.of?_eq, Reference.fromMetadata, ModuleSpec.toModule, hfile, Except.toOption]
    · exact .inr ⟨hname, rfl, _, rfl⟩

theorem of_start (files : Files) (start : ExportTable) : Of files start [] ⟨[], [], start, []⟩ :=
  ⟨by simp, by simp, fun _ => by simp [entriesOf]⟩

theorem Of.next (h : Of files start specs r) (spec : ModuleSpec × Nat) :
    Of files start (specs ++ [spec]) (r.next files spec) := by
  have hnames (name : String) : name ∈ r.names ++ [spec.1.name] ↔ name ∈ (specs ++ [spec]).map (·.1.name) := by
    simp [h.names]
  have hdefects : ((specs ++ [spec]).map (·.1.name)).Nodup ∧ (∀ s ∈ specs ++ [spec], s.1.HasExports files) ↔
      r.defects = [] ∧ spec.1.name ∉ r.names ∧ spec.1.HasExports files := by
    rw [h.defects, h.names, List.map_append, List.map_singleton, List.nodup_append_comm,
      List.singleton_append, List.nodup_cons, List.forall_mem_append, List.forall_mem_singleton]
    tauto
  -- After a defect nothing is said of the table, so it is looked at only where a module is taken.
  have hreject (r : ModulesRead) (defect : Defect) : (r.reject defect).defects ≠ [] := by simp [reject]
  rcases next_cases files r spec with
    ⟨hname, defect, hnext⟩ | ⟨hname, reference, href, hnext⟩ | ⟨hname, href, defect, hnext⟩
  · rw [hnext]
    refine ⟨fun name => ?_, ?_, fun hnil => absurd hnil (hreject _ _)⟩
    · rw [← hnames, List.mem_append, List.mem_singleton]
      exact ⟨.inl, fun hor => hor.elim id fun e => e ▸ hname⟩
    · exact iff_of_false (hreject _ _) fun hall => (hdefects.mp hall).2.1 hname
  · rw [hnext]
    refine ⟨hnames, ?_, fun hnil => ?_⟩
    · rw [hdefects, hasExports_iff, href]
      exact ⟨fun hnil => ⟨hnil, hname, rfl⟩, And.left⟩
    · have htable := h.table hnil
      simp [accept, ExportTable.add, htable, entriesOf, href, Reference.owner_of href]
  · rw [hnext]
    refine ⟨hnames, iff_of_false (hreject _ _) fun hall => ?_, fun hnil => absurd hnil (hreject _ _)⟩
    have hexports := hasExports_iff.mp (hdefects.mp hall).2.2
    rw [href] at hexports
    cases hexports

theorem Of.nextAll (h : Of files start specs r) (more : List (ModuleSpec × Nat)) :
    Of files start (specs ++ more) (more.foldl (ModulesRead.next files) r) := by
  induction more generalizing specs r with
  | nil => simpa using h
  | cons spec more ih => simpa using ih (h.next spec)

end ModulesRead

/-- The modules of a document, with their ids. -/
def Document.ownModules (core : Module) (d : Document) : List Module :=
  (d.modules.zipIdx (core.id + 1)).map ModuleSpec.toModule

/-- The types that a document may use: those of the core module and then those of its own modules, with short names
in the namespaces that it imports. -/
def Document.types (files : Files) (core : Module) (d : Document) : ExportTable :=
  ⟨(core.exports.getD []).map (core, ·) ++ entriesOf ((d.ownModules core).filterMap (Reference.of? files)),
    distinct d.imports.namespaces⟩

theorem Document.genuine_types (files : Files) (core : Module) (d : Document) : (d.types files core).Genuine files := by
  have hcore : ∃ rs : List Reference, (∀ r ∈ rs, r.Genuine files) ∧
      (core.exports.getD []).map (core, ·) = entriesOf rs := by
    cases hexports : core.exports with
    | none => exact ⟨[], nofun, rfl⟩
    | some exports =>
      refine ⟨[⟨core, core.name, exports, .metadata⟩], ?_, by simp [entriesOf]⟩
      exact List.forall_mem_singleton.mpr (Reference.genuine_of (reference_of_exports hexports))
  obtain ⟨rs, hrs, hentries⟩ := hcore
  refine ⟨rs ++ (d.ownModules core).filterMap (Reference.of? files),
    List.forall_mem_append.mpr ⟨hrs, fun r hr => ?_⟩, ?_⟩
  · obtain ⟨m, -, hm⟩ := List.mem_filterMap.mp hr
    exact Reference.genuine_of hm
  · rw [types, hentries, entriesOf, entriesOf, entriesOf, List.flatMap_append]

theorem importAll_eq (namespaces : List String) (table : ExportTable) :
    namespaces.foldl ExportTable.importNamespace table = ⟨table.entries, namespaces.foldl
      (fun kept ns => if ns ∈ kept then kept else kept ++ [ns]) table.namespaces⟩ := by
  induction namespaces generalizing table with
  | nil => rfl
  | cons ns namespaces ih =>
    rw [List.foldl_cons, ih, ExportTable.importNamespace, List.foldl_cons]
    split <;> rfl

theorem rejectAll_eq (names : List String) (r : ModulesRead) :
    names.foldl (fun r name => r.reject (.unknownImport name)) r =
      { r with defects := r.defects ++ names.map .unknownImport } := by
  induction names generalizing r with
  | nil => simp
  | cons name names ih => rw [List.foldl_cons, ih]; simp [ModulesRead.reject]

/-- The modules of a document have different names and exports, and those that it imports are among them. -/
structure Document.HasModules (files : Files) (d : Document) : Prop where
  names : (d.modules.map (·.name)).Nodup
  exports : ∀ spec ∈ d.modules, spec.HasExports files
  imports : ∀ name ∈ d.imports.modules, name ∈ d.modules.map (·.name)

theorem modules_ofDocument (files : Files) (core : Module) (d : Document) :
    ((ModulesRead.ofDocument files core d).defects = [] ↔ d.HasModules files) ∧
      ((ModulesRead.ofDocument files core d).defects = [] →
        (ModulesRead.ofDocument files core d).table = d.types files core) := by
  let start : ExportTable := ⟨(core.exports.getD []).map (core, ·), distinct d.imports.namespaces⟩
  have hstart : d.imports.namespaces.foldl ExportTable.importNamespace (ExportTable.empty.addModule core) = start := by
    rw [importAll_eq]
    rfl
  let r := (d.modules.zipIdx (core.id + 1)).foldl (ModulesRead.next files) ⟨[], [], start, []⟩
  have heq : ModulesRead.ofDocument files core d =
      { r with defects := r.defects ++ (d.imports.modules.filter (· ∉ r.names)).map .unknownImport } := by
    unfold ModulesRead.ofDocument
    dsimp only
    rw [hstart, rejectAll_eq]
  have hfst : (d.modules.zipIdx (core.id + 1)).map Prod.fst = d.modules := List.zipIdx_map_fst ..
  have hnames : (d.modules.zipIdx (core.id + 1)).map (·.1.name) = d.modules.map (·.name) := by
    conv => rhs; rw [← hfst, List.map_map]
    rfl
  have hexports : (∀ spec ∈ d.modules.zipIdx (core.id + 1), spec.1.HasExports files) ↔
      ∀ spec ∈ d.modules, spec.HasExports files := by
    conv => rhs; rw [← hfst, List.forall_mem_map]
  obtain ⟨hread, hdefects, htable⟩ := (ModulesRead.of_start files start).nextAll (d.modules.zipIdx (core.id + 1))
  simp only [List.nil_append, hnames, hexports] at hread hdefects htable
  rw [heq, List.append_eq_nil_iff, List.map_eq_nil_iff, List.filter_eq_nil_iff]
  refine ⟨⟨fun h => ?_, fun h => ⟨hdefects.mpr ⟨h.names, h.exports⟩, ?_⟩⟩, fun h => htable h.1⟩
  · obtain ⟨hmodules, hall⟩ := hdefects.mp h.1
    exact ⟨hmodules, hall, fun name hname => (hread name).mp (by simpa using h.2 name hname)⟩
  · exact fun name hname => by simpa using (hread name).mpr (h.imports name hname)

end Workflow

end FlowCheck
