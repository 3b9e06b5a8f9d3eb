import FlowCheck.Proofs.LinkOrder
import FlowCheck.Proofs.Workflow.Types
import FlowCheck.Proofs.Workflow.Validity
import FlowCheck.Report

/-! The types of a document as the compiler finds them. The result types of its expressions are looked up among the
    modules in the order of the document, and by the compiler, which is given their displays, in the order in which the
    modules are linked. -/

namespace FlowCheck.Workflow

open FlowCheck.Flow (TypeExpr typeOfExpr anywhere)

/-! ### Types that are met -/

/-- None of the types that are drawn in lacks the type that it extends because no more steps were taken. -/
def Uncut (table : ExportTable) (t : TypeDescriptor) : Prop :=
  ∀ s ∈ t.reachable, s.base = none → ∀ owner e, table.find? s.fullName = some (owner, e) →
    e.base.bind (base? table maxBaseDepth) = none

section Met

variable {table : ExportTable} (hnames : Named table) {k : Nat} {t s u v : TypeDescriptor}
include hnames

/-- Two types of one key have the same entry in the table. -/
theorem Described.same {j : Nat} (hs : Described table j s) (hu : Described table k u) (hkey : s.key = u.key) :
    ∃ e, table.find? u.fullName = some (u.owner, e) ∧ s.fullName = u.fullName ∧ s.owner = u.owner ∧
      s.base = e.base.bind (base? table j) ∧ u.base = e.base.bind (base? table k) := by
  obtain ⟨hname, -⟩ := hs.spelled.of_display hu.spelled (congrArg Prod.snd hkey)
  obtain ⟨e, hfind, -, -, hbase⟩ := hs.found hnames
  obtain ⟨e', hfind', -, -, hbase'⟩ := hu.found hnames
  rw [hname, hfind'] at hfind
  obtain ⟨howner, rfl⟩ := Prod.mk.inj (Option.some.inj hfind)
  exact ⟨e', hfind', hname, howner.symm, hbase, hbase'⟩

theorem met_arg (ht : Described table k t) (hu : t.Within u) (hmet : u.key ∈ t.reachable.map TypeDescriptor.key)
    (hv : v ∈ u.args) : v.key ∈ t.reachable.map TypeDescriptor.key := by
  obtain ⟨s, hs, hkey⟩ := List.mem_map.mp hmet
  obtain ⟨_, hus⟩ := ht.within hnames hu
  obtain ⟨_, hss⟩ := ht.within hnames (TypeDescriptor.within_of_reachable hs)
  obtain ⟨-, hargs⟩ := hss.spelled.of_display hus.spelled (congrArg Prod.snd hkey)
  obtain ⟨v', hv', hdisplay⟩ := List.mem_map.mp (hargs ▸ List.mem_map_of_mem hv)
  obtain ⟨_, hvs⟩ := hus.part hnames (.inr hv)
  obtain ⟨_, hvs'⟩ := hss.part hnames (.inr hv')
  obtain ⟨hname, -⟩ := hvs'.spelled.of_display hvs.spelled hdisplay
  obtain ⟨e, hfind, -⟩ := hvs.found hnames
  obtain ⟨e', hfind', -⟩ := hvs'.found hnames
  rw [hname, hfind] at hfind'
  obtain ⟨howner, -⟩ := Prod.mk.inj (Option.some.inj hfind')
  have hsame : v'.key = v.key := Prod.ext howner.symm hdisplay
  exact hsame ▸ TypeDescriptor.part_met hs (.inr hv')

theorem met_base (ht : Described table k t) (huncut : Uncut table t) (hu : t.Within u)
    (hmet : u.key ∈ t.reachable.map TypeDescriptor.key) (hv : u.base = some v) :
    v.key ∈ t.reachable.map TypeDescriptor.key := by
  obtain ⟨s, hs, hkey⟩ := List.mem_map.mp hmet
  obtain ⟨i, hus⟩ := ht.within hnames hu
  obtain ⟨j, hss⟩ := ht.within hnames (TypeDescriptor.within_of_reachable hs)
  obtain ⟨e, hfind, hname, howner, hsbase, hubase⟩ := hss.same hnames hus hkey
  obtain ⟨text, htext, hv⟩ := Option.bind_eq_some_iff.mp (hubase.symm.trans hv)
  rw [htext, Option.bind_some] at hsbase
  cases hsb : s.base with
  | none =>
    have hnone := huncut s hs hsb _ e (hname ▸ hfind)
    obtain ⟨_, hsome, -⟩ := base?_key hv 31
    rw [htext, Option.bind_some] at hnone
    exact absurd (hnone.symm.trans hsome) nofun
  | some v' =>
    rw [hsb] at hsbase
    cases j with
    | zero => cases hsbase
    | succ j =>
      obtain ⟨v'', hv'', hsame⟩ := base?_key hv j
      obtain rfl := Option.some.inj (hsbase.trans hv'')
      exact hsame ▸ TypeDescriptor.part_met hs (.inl hsb)

theorem met_within (ht : Described table k t) (huncut : Uncut table t) (hu : t.Within u) :
    u.key ∈ t.reachable.map TypeDescriptor.key := by
  induction hu with
  | self => exact TypeDescriptor.self_met
  | part hu hpart ih =>
    rcases hpart with hbase | harg
    · exact met_base hnames ht huncut hu ih hbase
    · exact met_arg hnames ht hu ih harg

theorem met_amongArgs (ht : Described table k t) (hu : t.AmongArgs u) :
    u.key ∈ t.reachable.map TypeDescriptor.key := by
  induction hu with
  | refl => exact TypeDescriptor.self_met
  | tail hu hv ih => exact met_arg hnames ht (TypeDescriptor.AmongArgs.within hu) ih hv

end Met

/-! ### Types that are linked -/

variable {files : Files}

/-- Of a name that an offered module owns some type is found, and it is that of its owner just if no module that is
linked before exports the name. -/
theorem lookup_linked {table : ExportTable} (htable : table.Genuine files) {rs : List Reference}
    (hrs : ∀ r ∈ rs, r.Genuine files) (namespaces : List String) {name : String} {owner : Module} {e : TypeExport}
    (hfind : table.find? name = some (owner, e)) (hoffered : ∀ r, Reference.of? files owner = some r → r ∈ rs) :
    ((Flow.exportTable rs namespaces).lookup name).isSome ∧ ∃ front r back, rs = front ++ r :: back ∧ r.owner = owner ∧
      ((Flow.exportTable rs namespaces).lookup name = some (owner, e) ↔ ∀ s ∈ front, s.find? name = none) := by
  obtain ⟨all, hall, hentries⟩ := htable
  rw [ExportTable.find?, hentries] at hfind
  obtain ⟨_, r, _, rfl, howner, he, -⟩ := find?_entriesOf.mp hfind
  have hr : Reference.of? files owner = some r := howner ▸ hall r (by simp)
  obtain ⟨front, back, rfl, hfirst⟩ := List.eq_append_cons_of_mem (hoffered r hr)
  have hlookup {found : Module × TypeExport} (h : (entriesOf (front ++ r :: back)).find? (·.2.name == name) = some found) :
      (Flow.exportTable (front ++ r :: back) namespaces).lookup name = some found := by
    have hexact : (Flow.exportTable (front ++ r :: back) namespaces).find? name = some found := h
    rw [ExportTable.lookup, hexact, Option.some_or]
  -- If a module before exports the name, the first such module is found, and it is another one.
  by_cases hfront : ∀ s ∈ front, s.find? name = none
  · have hfound := hlookup (find?_entriesOf.mpr ⟨front, r, back, rfl, howner, he, hfront⟩)
    exact ⟨Option.isSome_iff_exists.mpr ⟨_, hfound⟩, front, r, back, rfl, howner, iff_of_true hfound hfront⟩
  · obtain ⟨⟨owner', e'⟩, hbefore⟩ := Option.ne_none_iff_exists'.mp (mt find?_entriesOf_eq_none.mp hfront)
    obtain ⟨front', r', back', rfl, howner', he', hfront'⟩ := find?_entriesOf.mp hbefore
    have hfound := hlookup (find?_entriesOf.mpr ⟨front', r', back' ++ r :: back, by simp, howner', he', hfront'⟩)
    refine ⟨Option.isSome_iff_exists.mpr ⟨_, hfound⟩, _, r, back, rfl, howner, iff_of_false (fun h => ?_) hfront⟩
    obtain ⟨hsame, -⟩ := Prod.mk.inj (Option.some.inj (hfound.symm.trans h))
    have hr' : Reference.of? files owner = some r' := (howner'.trans hsame) ▸ hrs r' (by simp)
    exact hfirst (Option.some.inj (hr'.symm.trans hr) ▸ by simp)

theorem codes_of_alike (table : ExportTable) {te te' : TypeExpr} (h : te.Alike anywhere te') :
    (typeOfExpr table te).diagnostics.map (·.code) = (typeOfExpr table te').diagnostics.map (·.code) := by
  rw [← List.forall₂_eq_eq_eq, List.forall₂_map_left_iff, List.forall₂_map_right_iff]
  refine (h.typed table).2.imp ?_
  rintro _ _ ⟨p, loc, loc', -, rfl, rfl⟩
  rfl

/-- What is linked for a scope are references that modules have, and the owners of all types that are met are there. -/
theorem linked_sound (config : Config) (loader : ModuleLoader) {session : Session}
    (hcache : session.cache.Sound files) (scope : ValidationScope) :
    let compilation := ((Validator.flow files config loader).assemble session scope).2.compilation
    (∀ r ∈ compilation.references, r.Genuine files) ∧ ∀ unit ∈ scope.units, ∀ t ∈ unit.resultType.reachable,
      ∀ r, Reference.of? files t.owner = some r → r ∈ compilation.references := by
  intro compilation
  have hof := Validator.assembled_of (.exportTables files) config loader .keepAll hcache.faithful scope
  have hassemble : compilation = _ :=
    congrArg (·.2.compilation) (Validator.assemble_plain (.exportTables files) config loader .keepAll session scope)
  rw [hassemble, hof.compilation_eq (owning_exportTables files)]
  refine ⟨fun r hr => ?_, fun unit hunit t ht r hr => ?_⟩
  · obtain ⟨m, -, hm⟩ := List.mem_filterMap.mp hr
    exact Reference.genuine_of ((Reference.of?_eq_reference? files m).trans hm)
  · have howner : t.owner ∈ scope.units.flatMap fun unit => unit.resultType.drawnIn :=
      List.mem_flatMap.mpr ⟨unit, hunit, List.mem_map_of_mem ht⟩
    exact List.mem_filterMap.mpr ⟨t.owner, mem_distinct.mpr (List.mem_append_right _ howner),
      (Reference.of?_eq_reference? files t.owner).symm.trans hr⟩

/-- The checker finds the types of a document. The owner of each result type and of its arguments is linked, and so is
that of each type that is extended on the way unless steps to it are lacking. Of a type's name the checker finds what
the document means just if no module that is linked before the owner exports the name; where it does so for a
result type and its arguments, its display is the type that is meant, and otherwise at most the number of arguments of
a type from another module is wrong with it. -/
theorem loaded_types_linked (config : Config) (session : Session) (hcache : session.cache.Sound files) {text : String}
    {w : Loaded} (hload : load files (Flow.coreModule 0) text = .ok w)
    (hnames : Named (ModulesRead.ofDocument files (Flow.coreModule 0) w.document).table) :
    let registry := (ModulesRead.ofDocument files (Flow.coreModule 0) w.document).table
    let compilation := ((Validator.flow files config w.loader).assemble session w.scope).2.compilation
    let table := Flow.exportTable compilation.references compilation.namespaces
    ∀ unit ∈ w.units,
      (∀ t, unit.resultType.AmongArgs t ∨ unit.resultType.Within t ∧ Uncut registry unit.resultType →
        ∃ e front r back, registry.find? t.fullName = some (t.owner, e) ∧
          compilation.references = front ++ r :: back ∧ r.owner = t.owner ∧
          (table.lookup t.fullName = some (t.owner, e) ↔ ∀ s ∈ front, s.find? t.fullName = none)) ∧
      ∃ te, TypeExpr.ofText? unit.resultType.display = some te ∧ ∀ te', te.Alike anywhere te' →
        (∀ d ∈ (typeOfExpr table te').diagnostics, d.code = "FX0305" ∧
          ∃ t, unit.resultType.AmongArgs t ∧ table.lookup t.fullName ≠ registry.find? t.fullName) ∧
        ((∀ t, unit.resultType.AmongArgs t → table.lookup t.fullName = registry.find? t.fullName) →
          (typeOfExpr table te').type = unit.resultType.ty) := by
  intro registry compilation table unit hunit
  obtain ⟨hregistry, hunits⟩ := load_resolved hload
  obtain ⟨source, hresolve⟩ := hunits unit hunit
  have htype := resolve_described hnames hresolve
  obtain ⟨hgenuine, hlinked⟩ := linked_sound config w.loader hcache w.scope
  have hmet {t : TypeDescriptor} (hwithin : unit.resultType.Within t)
      (hmet : t.key ∈ unit.resultType.reachable.map TypeDescriptor.key) :
      ∃ e, registry.find? t.fullName = some (t.owner, e) ∧ e.arity = t.args.length ∧ e.name = t.fullName ∧
        (table.lookup t.fullName).isSome ∧ ∃ front r back, compilation.references = front ++ r :: back ∧
          r.owner = t.owner ∧ (table.lookup t.fullName = some (t.owner, e) ↔ ∀ s ∈ front, s.find? t.fullName = none) := by
    obtain ⟨_, ht⟩ := htype.within hnames hwithin
    obtain ⟨e, hfind, hname, harity, -⟩ := ht.found hnames
    obtain ⟨s, hs, hkey⟩ := List.mem_map.mp hmet
    have howner : s.owner = t.owner := congrArg Prod.fst hkey
    exact ⟨e, hfind, harity, hname, lookup_linked hregistry hgenuine compilation.namespaces hfind
      fun r hr => hlinked unit hunit s hs r (howner ▸ hr)⟩
  have hargs {t : TypeDescriptor} (ht : unit.resultType.AmongArgs t) :=
    hmet (TypeDescriptor.AmongArgs.within ht) (met_amongArgs hnames htype ht)
  refine ⟨fun t ht => ?_, ?_⟩
  · have h := ht.elim hargs fun ⟨hwithin, huncut⟩ => hmet hwithin (met_within hnames htype huncut hwithin)
    obtain ⟨e, hfind, -, -, -, front, r, back, hfront, howner, hlookup⟩ := h
    exact ⟨e, front, r, back, hfind, hfront, howner, hlookup⟩
  obtain ⟨te, hte, halike⟩ := htype.spelled.ofText?_display
  refine ⟨te, hte, fun te' halike' => ⟨fun d hd => ?_, fun hright => ?_⟩⟩
  · have hcodes := (codes_of_alike table halike).trans (codes_of_alike table halike')
    obtain ⟨d', hd', hcode⟩ := List.mem_map.mp (hcodes ▸ List.mem_map_of_mem hd)
    have hfound : ∀ t, unit.resultType.AmongArgs t → (table.lookup t.fullName).isSome := fun t ht =>
      (hargs ht).elim fun _ h => h.2.2.2.1
    obtain ⟨t, owner, e, loc, ht, hlookup, harity, rfl⟩ := TypeDescriptor.problems_written _ hfound d' hd'
    refine ⟨hcode.symm, t, ht, fun hsame => harity ?_⟩
    obtain ⟨e', hfind, harity', -⟩ := hargs ht
    obtain ⟨-, rfl⟩ := Prod.mk.inj (Option.some.inj ((hlookup.symm.trans hsame).trans hfind))
    exact harity'
  · have hwritten : typeOfExpr table unit.resultType.written = .clean unit.resultType.ty := by
      refine TypeDescriptor.typeOfExpr_written _ fun t ht => ?_
      obtain ⟨e, hfind, harity, hname, -⟩ := hargs ht
      exact ⟨_, e, (hright t ht).trans hfind, hname, harity⟩
    have htypes := (halike.typed table).1.trans (halike'.typed table).1
    rw [← htypes, hwritten]
    rfl

/-- A list of a type that a module of the document exports. -/
theorem loaded_types_linked_list :
    let files : Files := fun _ => none
    let text := "\x7b\"id\":\"w\",\"modules\":[\x7b\"name\":\"A\",\"exports\":[\x7b\"name\":\"X.T\"\x7d]\x7d]," ++
      "\"activities\":[\x7b\"id\":\"a\",\"expressions\":[" ++
      "\x7b\"id\":\"e\",\"text\":\"null\",\"resultType\":\"Core.List<X.T>\"\x7d]\x7d]\x7d"
    ∃ w, load files (Flow.coreModule 0) text = .ok w ∧
      Named (ModulesRead.ofDocument files (Flow.coreModule 0) w.document).table ∧ w.units ≠ [] ∧
      ∀ unit ∈ w.units, ∃ e front r back,
        (ModulesRead.ofDocument files (Flow.coreModule 0) w.document).table.find? unit.resultType.fullName =
          some (unit.resultType.owner, e) ∧
        ((Validator.flow files .default w.loader).assemble .empty w.scope).2.compilation.references = front ++ r :: back ∧
        r.owner = unit.resultType.owner := by
  intro files text
  have hloaded : ((load files (Flow.coreModule 0) text).toOption.any fun w =>
      decide (Named (ModulesRead.ofDocument files (Flow.coreModule 0) w.document).table) && !w.units.isEmpty) = true := by
    decide +kernel
  cases hload : load files (Flow.coreModule 0) text with
  | error => rw [hload] at hloaded; cases hloaded
  | ok w =>
    rw [hload] at hloaded
    obtain ⟨hnames, hunits⟩ := Bool.and_eq_true_iff.mp hloaded
    have hnames := of_decide_eq_true hnames
    refine ⟨w, rfl, hnames, by simpa using hunits, fun unit hunit => ?_⟩
    obtain ⟨e, front, r, back, hfind, hlinked, howner, -⟩ := (loaded_types_linked .default .empty
      ReferenceCache.sound_empty hload hnames unit hunit).1 unit.resultType (.inl .refl)
    exact ⟨e, front, r, back, hfind, hlinked, howner⟩

/-- Of each result type of a document without files, the module that owns it and the one that the checker finds, and
the codes of what the compiler reports. -/
def ownersFound (text : String) : Option (List (String × Option String) × Option (List String)) :=
  (load (fun _ => none) (Flow.coreModule 0) text).toOption.map fun w =>
    let v := Validator.flow (fun _ => none) .default w.loader
    let session := Session.requiring (Flow.coreModule 0)
    let compilation := (v.assemble session w.scope).2.compilation
    let table := Flow.exportTable compilation.references compilation.namespaces
    (w.units.map fun unit => (unit.resultType.owner.name,
        (table.lookup unit.resultType.fullName).map fun found => found.1.name),
      (v.diagnostics session w.scope).toOption.map fun ds => ds.map (·.code))

/-- Two modules export a type under one name. The first of them owns the result type of the expression, but only the
second is imported and so linked first, and its type takes an argument. -/
theorem resultType_shadowed :
    ownersFound ("\x7b\"id\":\"w\",\"modules\":[\x7b\"name\":\"A\",\"exports\":[\x7b\"name\":\"X.T\"\x7d]\x7d," ++
      "\x7b\"name\":\"B\",\"exports\":[\x7b\"name\":\"X.T\",\"arity\":1\x7d]\x7d],\"imports\":\x7b\"modules\":[\"B\"]\x7d," ++
      "\"activities\":[\x7b\"id\":\"a\",\"expressions\":[\x7b\"id\":\"e\",\"text\":\"null\",\"resultType\":\"X.T\"\x7d]\x7d]\x7d") =
      some ([("A", some "B")], some ["FX0305"]) := by
  decide +kernel

-- A name that starts with a point is no path: without the point, which is lost, it means a type of the core module.
example : ownersFound ("\x7b\"id\":\"w\",\"modules\":[\x7b\"name\":\"A\",\"exports\":[\x7b\"name\":\".Int\"\x7d]\x7d]," ++
      "\"imports\":\x7b\"namespaces\":[\"\"]\x7d,\"activities\":[\x7b\"id\":\"a\",\"expressions\":[" ++
      "\x7b\"id\":\"e\",\"text\":\"1\",\"resultType\":\"Int\"\x7d]\x7d]\x7d") =
    some ([("A", some "Core")], some []) := by
  decide +kernel

-- The last type that the second argument extends is not drawn in: the first argument extends the second, and from
-- there one step fewer is taken.
example :
    let name (i : Nat) := "A" ++ Nat.repr i
    let owner (i : Nat) : Module := ⟨i / 33, "", .static, none, none⟩
    let table : ExportTable := ⟨(owner 0, { name := "Pair", arity := 2 }) :: (List.range 34).map fun i =>
      (owner i, { name := name i, base := name (i + 1) }), []⟩
    (resolve table "Pair<A0, A1>").toOption.map (fun t =>
      (t.args.map fun u => u.bases.any (·.owner == owner 33), t.reachable.any (·.owner == owner 33))) =
      some ([false, true], false) := by
  decide +kernel

end FlowCheck.Workflow
