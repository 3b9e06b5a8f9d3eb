import FlowCheck.Proofs.Workflow.Types

/-! The display of a type as its canonical text. A text may name a type and its arguments by short names, which mean
    what they do through the namespaces of the table; the display has the full names, and these are found before any
    namespace is tried. So the display means the type whatever the namespaces are, and two texts that mean types with
    one display mean one type. What the exported types extend is looked up only once the type has been found, so it
    does not matter for whether a text means a type. -/

namespace FlowCheck

open FlowCheck.Flow (TypeExpr anywhere)

/-! ### Tables -/

/-- The same exports, but none of them extends another. -/
def ExportTable.withoutBases (table : ExportTable) : ExportTable :=
  { table with entries := table.entries.map fun entry => (entry.1, { entry.2 with base := none }) }

namespace Workflow

variable {table other : ExportTable} {base : String → Option TypeDescriptor}

theorem lookup_withoutBases (table : ExportTable) (path : String) : table.withoutBases.lookup path =
    (table.lookup path).map fun found => (found.1, { found.2 with base := none }) := by
  have hfind (name : String) : table.withoutBases.find? name =
      (table.find? name).map fun found => (found.1, { found.2 with base := none }) := List.find?_map
  have hnamespaces : table.withoutBases.namespaces = table.namespaces := rfl
  simp only [ExportTable.lookup, hfind, hnamespaces, Option.map_or, List.map_findSome?, Function.comp_def]

/-- Tables that differ in nothing but what exported types extend have the same names for them. -/
theorem covers_of_withoutBases (h : other.withoutBases = table.withoutBases) : Covers other table := by
  intro path owner e he
  have hsame := congrArg (·.lookup path) h
  simp only [lookup_withoutBases, he, Option.map_some] at hsame
  obtain ⟨⟨owner', e'⟩, he', hparts⟩ := Option.map_eq_some_iff.mp hsame
  obtain ⟨rfl, hexport⟩ := Prod.mk.inj hparts
  obtain ⟨hname, harity, -⟩ := TypeExport.mk.inj hexport
  exact ⟨e', he', hname, harity⟩

/-! ### The canonical text -/

open TypeDescriptor in
mutual
/-- The tree of a type's display is described as the type, whatever the namespaces are. -/
theorem describe_written (hnames : Named table) (hentries : other.entries = table.entries) :
    ∀ (te te' : TypeExpr) {t : TypeDescriptor}, describe table base te = .ok t → t.written.Alike anywhere te' →
      describe other base te' = .ok t
  | ⟨path, tes, loc⟩, ⟨path', tes', loc'⟩, t, h, halike => by
    obtain ⟨owner, e, args, hlookup, harity, hargs, rfl⟩ := describe_ok.mp h
    obtain ⟨hpath, hall⟩ := of_written_alike halike
    rw [args_ofFullName] at hall
    rw [(fullName_named hnames hlookup (e.base.bind base) args).1] at hpath
    have hlookup' : other.lookup path' = some (owner, e) :=
      hpath ▸ ExportTable.lookup_name_of_entries hentries hlookup
    have hlength : tes.length = tes'.length := by
      rw [← describeAll_length hargs, ← hall.length_eq, List.length_map]
    exact describe_ok.mpr ⟨owner, e, args, hlookup', harity.trans hlength,
      describeAll_written hnames hentries tes tes' hargs hall, rfl⟩
theorem describeAll_written (hnames : Named table) (hentries : other.entries = table.entries) :
    ∀ (tes tes' : List TypeExpr) {ts : List TypeDescriptor}, describeAll table base tes = .ok ts →
      List.Forall₂ (TypeExpr.Alike anywhere) (ts.map written) tes' → describeAll other base tes' = .ok ts
  | [], _, _, h, hall => by
    cases h
    cases hall
    rfl
  | te :: tes, tes', ts, h, hall => by
    obtain ⟨u, us, hu, hus, rfl⟩ := describeAll_cons.mp h
    obtain _ | ⟨halike, hall⟩ := hall
    exact describeAll_cons.mpr ⟨u, us, describe_written hnames hentries te _ hu halike,
      describeAll_written hnames hentries tes _ hus hall, rfl⟩
end

/-- The display of a type is read, and described as the type. -/
theorem display_described (hnames : Named table) {text : String} {t : TypeDescriptor} (h : resolve table text = .ok t) :
    ∃ te, TypeExpr.ofText? t.display = some te ∧ ∀ other : ExportTable, other.entries = table.entries →
      describe other (base? table maxBaseDepth) te = .ok t := by
  obtain ⟨te, -, ht⟩ := resolve_eq_ok_iff.mp h
  obtain ⟨te', hte', halike⟩ := (resolve_described hnames h).spelled.ofText?_display
  exact ⟨te', hte', fun other hentries => describe_written hnames hentries te te' ht halike⟩

theorem resolve_of_covers (hcovers : Covers other table) {text : String} {t : TypeDescriptor}
    (h : resolve table text = .ok t) : ∃ t', resolve other text = .ok t' ∧ t'.key = t.key := by
  obtain ⟨te, hte, ht⟩ := resolve_eq_ok_iff.mp h
  obtain ⟨t', ht', hkey⟩ := describe_key hcovers (base? other maxBaseDepth) te ht
  exact ⟨t', resolve_eq_ok_iff.mpr ⟨te, hte, ht'⟩, hkey⟩

/-- The display of a type is a text for it: it can be read and means the same type, down to all that the type and its
arguments extend, and no other text means another type with this display. With other namespaces it still means a type
of this owner. Whether a text means a type does not depend on what exported types extend. -/
theorem canonical_text {table : ExportTable} (hnames : ∀ entry ∈ table.entries, ∃ first others,
      (∀ name ∈ first :: others, Flow.Named name) ∧ entry.2.name = Flow.joinPath first others) (text : String) :
    (∀ t, resolve table text = .ok t → (TypeExpr.ofText? t.display).isSome ∧ resolve table t.display = .ok t ∧
      (∀ text' t', resolve table text' = .ok t' → t'.display = t.display → t' = t) ∧
      ∀ namespaces, ∃ t', resolve { table with namespaces } t.display = .ok t' ∧ t'.key = t.key) ∧
    ∀ other : ExportTable, other.withoutBases = table.withoutBases →
      ((∃ t, resolve other text = .ok t) ↔ ∃ t, resolve table text = .ok t) := by
  have hpaths : Named table := fun entry hentry => Flow.isPath_iff.mpr (hnames entry hentry)
  have hdisplay {text : String} {t : TypeDescriptor} (h : resolve table text = .ok t) :
      resolve table t.display = .ok t := by
    obtain ⟨te, hte, ht⟩ := display_described hpaths h
    exact resolve_eq_ok_iff.mpr ⟨te, hte, ht table rfl⟩
  refine ⟨fun t h => ⟨?_, hdisplay h, fun text' t' h' hsame => ?_, fun namespaces => ?_⟩, fun other hother => ?_⟩
  · obtain ⟨te, hte, -⟩ := display_described hpaths h
    rw [hte, Option.isSome_some]
  · have hback := hdisplay h'
    rw [hsame, hdisplay h] at hback
    exact (Except.ok.inj hback).symm
  · obtain ⟨te, hte, ht⟩ := display_described hpaths h
    obtain ⟨t', ht', hkey⟩ := describe_key (.refl _) (base? { table with namespaces } maxBaseDepth) te
      (ht { table with namespaces } rfl)
    exact ⟨t', resolve_eq_ok_iff.mpr ⟨te, hte, ht'⟩, hkey⟩
  · constructor
    · rintro ⟨t, ht⟩
      obtain ⟨t', ht', -⟩ := resolve_of_covers (covers_of_withoutBases hother.symm) ht
      exact ⟨t', ht'⟩
    · rintro ⟨t, ht⟩
      obtain ⟨t', ht', -⟩ := resolve_of_covers (covers_of_withoutBases hother) ht
      exact ⟨t', ht'⟩

/-- Short names through two namespaces; of the two types without arguments each extends the other. -/
theorem canonical_text_short :
    let owner : Module := ⟨1, "M", .static, none, none⟩
    let table : ExportTable := ⟨[(owner, { name := "Data.Pair", arity := 2 }),
      (owner, { name := "Shop.Item", base := "Thing" }), (owner, { name := "Shop.Thing", base := "Item" })],
      ["Shop", "Data"]⟩
    Named table ∧ ∃ t, resolve table "Pair<Item, Data.Pair<Thing, Shop.Item>>" = .ok t ∧
      resolve table "Data.Pair<Shop.Item, Data.Pair<Shop.Thing, Shop.Item>>" = .ok t := by
  intro owner table
  obtain ⟨hpaths, hresolve⟩ : Named table ∧
      (resolve table "Pair<Item, Data.Pair<Thing, Shop.Item>>").toOption.map TypeDescriptor.display =
        some "Data.Pair<Shop.Item, Data.Pair<Shop.Thing, Shop.Item>>" := by
    decide +kernel +zetaReduce
  obtain ⟨t, ht, hdisplay⟩ := Option.map_eq_some_iff.mp hresolve
  have ht : resolve table "Pair<Item, Data.Pair<Thing, Shop.Item>>" = .ok t := by
    cases h : resolve table "Pair<Item, Data.Pair<Thing, Shop.Item>>" with
    | error => rw [h] at ht; cases ht
    | ok => rw [h] at ht; rw [Option.some.inj ht]
  have hcanonical := (canonical_text (fun entry hentry => Flow.isPath_iff.mp (hpaths entry hentry)) _).1 t ht
  exact ⟨hpaths, t, ht, hdisplay ▸ hcanonical.2.1⟩

end Workflow

end FlowCheck
