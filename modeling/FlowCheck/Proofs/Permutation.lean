import FlowCheck.Proofs.Acceptance
import FlowCheck.Proofs.Flow.Lookup
import FlowCheck.Proofs.Flow.Moved
import FlowCheck.Proofs.LinkOrder
import FlowCheck.Proofs.Workflow.Load

/-! The order of a batch. Where no type name is exported by two of the modules that are linked, it does not matter
    which of them is linked first. Then the checker says the same of an expression wherever it stands in its batch,
    and in whatever order the modules are declared. -/

namespace FlowCheck

/-! ### What is linked -/

/-- No type name is exported by two of the modules that are linked. -/
def Compilation.Unambiguous {Tree : Type} (c : Compilation Tree) : Prop :=
  ∀ r ∈ c.references, ∀ s ∈ c.references, ∀ e ∈ r.exports, ∀ f ∈ s.exports, e.name = f.name → r.owner = s.owner

instance {Tree : Type} (c : Compilation Tree) : Decidable c.Unambiguous :=
  inferInstanceAs (Decidable (∀ r ∈ c.references, ∀ s ∈ c.references, ∀ e ∈ r.exports, ∀ f ∈ s.exports,
    e.name = f.name → r.owner = s.owner))

/-- Where only one reference has a name, it does not matter where that reference stands. -/
theorem find?_entriesOf_of_unique {rs : List Reference} {name : String}
    (hunique : ∀ r ∈ rs, ∀ s ∈ rs, (r.find? name).isSome → (s.find? name).isSome → r = s) {owner : Module}
    {e : TypeExport} : (entriesOf rs).find? (·.2.name == name) = some (owner, e) ↔
      ∃ r ∈ rs, r.owner = owner ∧ r.find? name = some e := by
  constructor
  · intro h
    obtain ⟨front, r, back, rfl, howner, he, -⟩ := find?_entriesOf.mp h
    exact ⟨r, List.mem_append_right _ (.head _), howner, he⟩
  · rintro ⟨r, hr, rfl, he⟩
    cases hfind : (entriesOf rs).find? (·.2.name == name) with
    | none => rw [find?_entriesOf_eq_none.mp hfind r hr] at he; cases he
    | some found =>
      obtain ⟨front, s, back, hrs, howner, hs, -⟩ := find?_entriesOf.mp hfind
      have hsame : s = r := hunique s (hrs ▸ List.mem_append_right _ (.head _)) r hr (by simp [hs]) (by simp [he])
      rw [hsame] at howner hs
      rw [howner, Option.some.inj (he.symm.trans hs)]

theorem Reference.exported_of_find? {r : Reference} {name : String} (h : (r.find? name).isSome) :
    ∃ e ∈ r.exports, e.name = name := by
  obtain ⟨e, he⟩ := Option.isSome_iff_exists.mp h
  have hname := List.find?_some (show r.exports.find? (·.name == name) = some e from he)
  exact ⟨e, List.mem_of_find?_eq_some he, beq_iff_eq.mp hname⟩

theorem lookup_exportTable {rs ss : List Reference} (hmem : ∀ r, r ∈ rs ↔ r ∈ ss)
    (hunique : ∀ r ∈ rs, ∀ s ∈ rs, ∀ name, (r.find? name).isSome → (s.find? name).isSome → r = s)
    (namespaces : List String) :
    (Flow.exportTable rs namespaces).lookup = (Flow.exportTable ss namespaces).lookup := by
  have hfind : (Flow.exportTable rs namespaces).find? = (Flow.exportTable ss namespaces).find? := by
    funext name
    refine Option.ext fun ⟨owner, e⟩ => ?_
    have hleft : (entriesOf rs).find? (·.2.name == name) = some (owner, e) ↔
        ∃ r ∈ rs, r.owner = owner ∧ r.find? name = some e :=
      find?_entriesOf_of_unique fun r hr s hs => hunique r hr s hs name
    have hright : (entriesOf ss).find? (·.2.name == name) = some (owner, e) ↔
        ∃ r ∈ ss, r.owner = owner ∧ r.find? name = some e :=
      find?_entriesOf_of_unique fun r hr s hs => hunique r ((hmem r).mpr hr) s ((hmem s).mpr hs) name
    exact hleft.trans ((exists_congr fun r => and_congr_left' (hmem r)).trans hright.symm)
  funext path
  rw [ExportTable.lookup, ExportTable.lookup, hfind]
  rfl

/-! ### Lines -/

/-- But for the name of its item the line of an expression says the same at every place. -/
theorem ExpressionUnit.calls_row (unit : ExpressionUnit) :
    ∃ tail, ∀ index, (unit.row index).Calls (itemName index) tail :=
  ⟨_, fun index => ⟨named_itemName index,
    (unit.inner_eq index).trans (congrArg (List.cons ' ') (List.append_assoc (itemName index).toList _ _))⟩⟩

/-- What the checker says on a line of a batch. -/
def saidOn (ds : List Diagnostic) (i : Nat) : List (Severity × String × String) :=
  (ds.filter fun d => d.ofChecker && d.onLine i).map fun d => (d.severity, d.code, d.message)

theorem saidOn_sort (table : ExportTable) {units : List ExpressionUnit} {i : Nat} {unit : ExpressionUnit}
    (hunit : units[i]? = some unit) : saidOn (Diagnostic.sort (Flow.Row.problems table (rowsOf 0 units))) i =
      (Diagnostic.sort ((unit.row i).semantic table i (i + 1 == units.length))).map
        fun d => (d.severity, d.code, d.message) := by
  have hsemantic : Flow.AllOf (·.ofForm = false) ((unit.row i).semantic table i (i + 1 == units.length)) := by
    intro d hd
    obtain ⟨item, -, hd⟩ := List.mem_flatMap.mp hd
    exact Flow.checkItem_allOf table item d hd
  rw [saidOn, ← List.filter_filter, Diagnostic.filter_sort, Flow.Row.filter_problems, getElem?_rowsOf, hunit,
    length_rowsOf, Diagnostic.filter_sort]
  dsimp only [Option.map_some]
  rw [Flow.Row.diagnostics, List.filter_append, List.filter_append, Flow.Row.lexical_form.not_ofChecker,
    Flow.Row.syntactic_form.not_ofChecker, hsemantic.ofChecker]
  rfl

theorem saidOn_moved {table other : ExportTable} (h : table.lookup = other.lookup) {units others : List ExpressionUnit}
    {i j : Nat} {unit : ExpressionUnit} (hi : units[i]? = some unit) (hj : others[j]? = some unit) :
    saidOn (Diagnostic.sort (Flow.Row.problems table (rowsOf 0 units))) i =
      saidOn (Diagnostic.sort (Flow.Row.problems other (rowsOf 0 others))) j := by
  obtain ⟨tail, hcalls⟩ := unit.calls_row
  have hsemantic : Flow.Row.semantic table = Flow.Row.semantic other := by
    funext k final r
    rw [Flow.Row.semantic, Flow.Row.semantic, Flow.checkItem_congr h]
  let found (index count : Nat) : List Diagnostic := (unit.row index).semantic other index (index + 1 == count)
  have hmoved := Diagnostic.rel_sort (fun h h' => h.le_eq h')
    (show List.Forall₂ _ (found i units.length) (found j others.length) from
      Flow.Row.semantic_moved (hcalls i) (hcalls j) other)
  rw [saidOn_sort table hi, saidOn_sort other hj, hsemantic, ← List.forall₂_eq_eq_eq, List.forall₂_map_left_iff,
    List.forall₂_map_right_iff]
  refine hmoved.imp fun d d' hd => ?_
  obtain ⟨p, loc, loc', -, rfl, rfl⟩ := hd
  rfl

namespace Validator

variable (provider : ReferenceProvider) (config : Config) (loader : ModuleLoader) (curator : Curator)

/-- The same modules are needed after histories with the same required modules, for scopes with the same
declarations and the same types of results in any order. -/
theorem mem_needed {before after : List Operation}
    (hrequired : ((plain provider config loader curator).run before).required =
      ((plain provider config loader curator).run after).required)
    {s t : ValidationScope} (hunits : s.units.Perm t.units) (hmodules : s.modules.Perm t.modules) (m : Module) :
    m ∈ needed provider config loader curator before s ↔ m ∈ needed provider config loader curator after t := by
  have hhistory : m ∈ before.filterMap Operation.required? ↔ m ∈ after.filterMap Operation.required? := by
    rw [required_run, required_run] at hrequired
    rw [← mem_distinct, ← RequiredModules.members_ofList, hrequired, RequiredModules.members_ofList, mem_distinct]
  rw [needed, needed, List.mem_append, List.mem_append, List.mem_append, List.mem_append, hhistory,
    (hmodules.filterMap _).mem_iff, (hunits.flatMap_right _).mem_iff]

/-- A batch whose expressions and declarations are put into another order: where no type name is exported by two of
the modules that are linked, the checker says the same of every expression. -/
theorem diagnostics_permuted (howning : provider.Owning) {before after : List Operation} {s t : ValidationScope}
    (hnamespaces : s.namespaces = t.namespaces) (hunits : s.units.Perm t.units) (hmodules : s.modules.Perm t.modules) :
    let v := plain provider config loader curator
    (v.run before).required = (v.run after).required →
      (v.assemble (v.run before) s).2.compilation.Unambiguous →
      ∃ ds es, v.diagnostics (v.run before) s = .ok ds ∧ v.diagnostics (v.run after) t = .ok es ∧
        ∀ i j unit, s.units[i]? = some unit → t.units[j]? = some unit → saidOn ds i = saidOn es j := by
  intro v hrequired hunique
  have hs := (assembled_run provider config loader curator before s).compilation_eq howning
  have ht := (assembled_run provider config loader curator after t).compilation_eq howning
  let rs := (distinct (needed provider config loader curator before s)).filterMap provider.reference?
  let ss := (distinct (needed provider config loader curator after t)).filterMap provider.reference?
  have hmem (r : Reference) : r ∈ rs ↔ r ∈ ss := by
    simp only [rs, ss, List.mem_filterMap, mem_distinct]
    exact exists_congr fun m => and_congr_left' (mem_needed provider config loader curator hrequired hunits hmodules m)
  -- Two references with a name have the same owner, for which the provider gives only one.
  have hsame : ∀ r ∈ rs, ∀ r' ∈ rs, ∀ name, (r.find? name).isSome → (r'.find? name).isSome → r = r' := by
    intro r hr r' hr' name h h'
    obtain ⟨e, he, hename⟩ := Reference.exported_of_find? h
    obtain ⟨e', he', hename'⟩ := Reference.exported_of_find? h'
    obtain ⟨m, -, hm⟩ := List.mem_filterMap.mp hr
    obtain ⟨m', -, hm'⟩ := List.mem_filterMap.mp hr'
    have hassemble : v.assemble (v.run before) s = _ := assemble_plain provider config loader curator _ s
    rw [hassemble] at hunique
    have howner := hunique r (hs ▸ hr) r' (hs ▸ hr') e he e' he' (hename.trans hename'.symm)
    rw [howning m r hm, howning m' r' hm'] at howner
    exact Option.some.inj (hm.symm.trans (howner ▸ hm'))
  refine ⟨_, _, diagnostics_plain .., diagnostics_plain .., fun i j unit hi hj => saidOn_moved ?_ hi hj⟩
  rw [table, table, hs, ht, hnamespaces]
  exact lookup_exportTable hmem hsame _

/-- Two expressions, with an error each, and two modules change places between two validations of one session. -/
theorem diagnostics_permuted_swapped :
    let core := Flow.coreModule 0
    let orders : Module := ⟨1, "Orders", .dynamic, some [{ name := "Orders.Order", base := "Core.Object" }], none⟩
    let bills : Module := ⟨2, "Bills", .static, some [{ name := "Bills.Bill", base := "Orders.Order" }], none⟩
    let bill : ExpressionUnit := { ExpressionUnit.ofText "a" "bill.total" "Core.Int" with
      environment := ⟨[("bill", .ofFullName "Bills.Bill" bills none [])]⟩ }
    let sum : ExpressionUnit := .ofText "b" "1 + missing" "Core.Int"
    let s : ValidationScope := ⟨[bill, sum], [], [.loaded orders, .loaded bills]⟩
    let t : ValidationScope := ⟨[sum, bill], [], [.loaded bills, .loaded orders]⟩
    let before : List Operation := [.require core]
    let after : List Operation := [.require core, .validate (some s)]
    ∃ ds es, bare.diagnostics (bare.run before) s = .ok ds ∧ bare.diagnostics (bare.run after) t = .ok es ∧
      saidOn ds 0 = saidOn es 1 ∧ saidOn ds 1 = saidOn es 0 := by
  intro core orders bills bill sum s t before after
  have hrequired : (bare.run before).required = (bare.run after).required := by
    rw [required_run, required_run]
    rfl
  have hnamespaces : s.namespaces = t.namespaces := rfl
  have hunits : s.units.Perm t.units := .swap sum bill []
  have hmodules : s.modules.Perm t.modules := .swap _ _ []
  obtain ⟨ds, es, hds, hes, hsaid⟩ := diagnostics_permuted (.exportTables fun _ => none) .default (fun _ => none)
    .keepAll (owning_exportTables _) hnamespaces hunits hmodules hrequired (by decide +kernel)
  exact ⟨ds, es, hds, hes, hsaid 0 1 bill rfl rfl, hsaid 1 0 sum rfl rfl⟩

end Validator

end FlowCheck
