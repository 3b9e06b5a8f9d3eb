import FlowCheck.Proofs.Workflow.Load
import FlowCheck.Proofs.Workflow.Types

/-! A type is looked up in two ways: for a document as a descriptor, with all the types that it extends in it, and for
    the checker as a name with arguments, from which the types that it extends are looked up again. Over the same
    exports both ways find the same types, and take the same steps to bases before they stop. -/

namespace FlowCheck

open FlowCheck.Flow (Ty TypeExpr)

/-! ### Tables -/

/-- The exports of some references and some namespaces were put into the table one by one, the references among
themselves in their order and so the namespaces. -/
inductive ExportTable.Filled : ExportTable → List Reference → List String → Prop where
  | empty : Filled .empty [] []
  | add {registry : ExportTable} {refs : List Reference} {namespaces : List String} (r : Reference)
      (h : Filled registry refs namespaces) : Filled (registry.add r.owner r.exports) (refs ++ [r]) namespaces
  | importNamespace {registry : ExportTable} {refs : List Reference} {namespaces : List String} (ns : String)
      (h : Filled registry refs namespaces) : Filled (registry.importNamespace ns) refs (namespaces ++ [ns])

/-- Every path means the same in the table as in that of the checker, which keeps namespaces that it has twice. -/
theorem ExportTable.Filled.lookup {registry : ExportTable} {refs : List Reference} {namespaces : List String}
    (h : registry.Filled refs namespaces) : registry.lookup = (Flow.exportTable refs namespaces).lookup := by
  have hentries : registry.entries = entriesOf refs := by
    induction h with
    | empty => rfl
    | add r _ ih => rw [ExportTable.add, ih, entriesOf, entriesOf, List.flatMap_append, List.flatMap_singleton]
    | importNamespace ns _ ih =>
      unfold ExportTable.importNamespace
      split <;> exact ih
  have hshort (f : String → Option (Module × TypeExport)) :
      registry.namespaces.findSome? f = namespaces.findSome? f := by
    clear hentries
    induction h with
    | empty => rfl
    | add _ _ ih => exact ih
    | @importNamespace registry _ namespaces ns h ih =>
      rw [List.findSome?_append, ← ih]
      unfold ExportTable.importNamespace
      split
      · rename_i hns
        cases hfound : registry.namespaces.findSome? f with
        | some found => rfl
        | none => simp [List.findSome?_eq_none_iff.mp hfound ns hns]
      · exact List.findSome?_append
  have hfind : registry.find? = (Flow.exportTable refs namespaces).find? := by
    funext name
    rw [ExportTable.find?, hentries]
    rfl
  funext path
  rw [ExportTable.lookup, ExportTable.lookup, hfind, hshort]
  rfl

theorem TypeDescriptor.bases_of_none {t : TypeDescriptor} (h : t.base = none) : t.bases = [] := by
  obtain ⟨ns, name, owner, base, args⟩ := t
  cases h
  rfl

theorem TypeDescriptor.bases_of_some {t u : TypeDescriptor} (h : t.base = some u) : t.bases = u :: u.bases := by
  obtain ⟨ns, name, owner, base, args⟩ := t
  cases h
  rfl

namespace Workflow

/-! ### One type in two forms -/

/-- The descriptor and the type of the checker stand for the same exported type, and so do all their arguments: the full
name of the descriptor means this export in the table, of the module that owns the descriptor. The full name is that of
the export, but lacks the point of a name that has only one, at its start. -/
inductive Denotes (table : ExportTable) : TypeDescriptor → Ty → Prop where
  | named {t : TypeDescriptor} {e : TypeExport} {args : List Ty} (found : table.lookup t.fullName = some (t.owner, e))
      (name : e.name = t.fullName ∨ e.name = "." ++ t.fullName) (below : List.Forall₂ (Denotes table) t.args args) :
      Denotes table t (.named e.name args)

variable {registry table : ExportTable} {base : String → Option TypeDescriptor}

mutual
theorem Denotes.unique : ∀ (τ : Ty) {t : TypeDescriptor} {τ' : Ty}, Denotes table t τ → Denotes table t τ' → τ = τ'
  | .named _ args, _, _, .named found _ below, .named found' _ below' => by
    rw [found] at found'
    obtain ⟨-, rfl⟩ := Prod.mk.inj (Option.some.inj found')
    rw [Denotes.unique_all args below below']
  | .null, _, _, h, _ => nomatch h
  | .error, _, _, h, _ => nomatch h
theorem Denotes.unique_all : ∀ (args : List Ty) {ts : List TypeDescriptor} {args' : List Ty},
    List.Forall₂ (Denotes table) ts args → List.Forall₂ (Denotes table) ts args' → args = args'
  | [], _, _, .nil, .nil => rfl
  | τ :: args, _, _, .cons h below, .cons h' below' => by
    rw [Denotes.unique τ h h', Denotes.unique_all args below below']
end

theorem Denotes.ne_error {t : TypeDescriptor} {τ : Ty} (h : Denotes table t τ) : τ ≠ .error := by
  cases h
  exact nofun

/-! ### Types that are written -/

theorem describeAll_ok {tes : List TypeExpr} {ts : List TypeDescriptor} :
    describeAll table base tes = .ok ts ↔ List.Forall₂ (fun te t => describe table base te = .ok t) tes ts := by
  induction tes generalizing ts with
  | nil => cases ts <;> simp [describeAll]
  | cons te tes ih =>
    rw [describeAll_cons]
    constructor
    · rintro ⟨u, us, hu, hus, rfl⟩
      exact .cons hu (ih.mp hus)
    · rintro (_ | ⟨hu, hus⟩)
      exact ⟨_, _, hu, ih.mpr hus, rfl⟩

/-- The full name that a descriptor gets means the export that it was made from, in every table where a path has found
this export. -/
theorem lookup_fullName {path : String} (hpath : path.toList.head? ≠ some '.') {owner : Module} {e : TypeExport}
    (h : table.lookup path = some (owner, e)) (base : Option TypeDescriptor) (args : List TypeDescriptor) :
    table.lookup (TypeDescriptor.ofFullName e.name owner base args).fullName = some (owner, e) := by
  rcases TypeDescriptor.fullName_ofFullName_cases e.name owner base args with hname | ⟨hname, hpoint⟩
  · rw [hname, ExportTable.lookup_name h]
  · -- The name starts with a point and has no other, so `path` has found it in the namespace without a name.
    rcases Option.or_eq_some_iff.mp h with hexact | ⟨-, hshort⟩
    · have he : e.name = path := by simpa using List.find?_some hexact
      rw [← he, hname, String.toList_append] at hpath
      exact absurd rfl hpath
    · obtain ⟨ns, -, hns⟩ := List.exists_of_findSome?_eq_some hshort
      have he : e.name = ns ++ "." ++ path := by simpa using List.find?_some hns
      have hlist := congrArg String.toList (hname.symm.trans he)
      simp only [String.toList_append, List.append_assoc] at hlist
      cases hchars : ns.toList with
      | nil =>
        rw [hchars, List.nil_append] at hlist
        rw [String.toList_injective (List.append_cancel_left hlist), h]
      | cons c rest =>
        rw [hchars] at hlist
        have htail : (TypeDescriptor.ofFullName e.name owner base args).fullName.toList = rest ++ '.' :: path.toList :=
          (List.cons.inj hlist).2
        rw [htail] at hpoint
        exact absurd (List.mem_append_right _ (.head _)) hpoint

theorem denotes_ofFullName {path : String} (hpath : path.toList.head? ≠ some '.') {owner : Module} {e : TypeExport}
    (h : table.lookup path = some (owner, e)) (base : Option TypeDescriptor) {ts : List TypeDescriptor} {args : List Ty}
    (hargs : List.Forall₂ (Denotes table) ts args) :
    Denotes table (.ofFullName e.name owner base ts) (.named e.name args) := by
  refine .named ?_ ?_ ?_
  · rw [lookup_fullName hpath h, TypeDescriptor.owner_ofFullName]
  · rcases TypeDescriptor.fullName_ofFullName_cases e.name owner base ts with hname | ⟨hname, -⟩
    · exact .inl hname.symm
    · exact .inr hname
  · rwa [TypeDescriptor.args_ofFullName]

theorem forall₂_join {α β γ : Type} {R : α → β → Prop} {S : α → γ → Prop} {T : β → γ → Prop} {xs : List α} {ys : List β}
    (h : List.Forall₂ R xs ys) (hjoin : ∀ x ∈ xs, ∀ y, R x y → ∃ z, S x z ∧ T y z) :
    ∃ zs, List.Forall₂ S xs zs ∧ List.Forall₂ T ys zs := by
  induction h with
  | nil => exact ⟨[], .nil, .nil⟩
  | cons hR _ ih =>
    obtain ⟨hx, hxs⟩ := List.forall_mem_cons.mp hjoin
    obtain ⟨z, hS, hT⟩ := hx _ hR
    obtain ⟨zs, hSs, hTs⟩ := ih hxs
    exact ⟨z :: zs, .cons hS hSs, .cons hT hTs⟩

section Agreement

variable (hsame : registry.lookup = table.lookup)
include hsame

/-- What is written here is a type in the one way if it is in the other, and then it is the same type. -/
theorem describe_denotes {te : TypeExpr} (h : te.Rooted) (base : String → Option TypeDescriptor) :
    (∀ t, describe registry base te = .ok t → ∃ τ, Ty.ofExpr? table te = some τ ∧ Denotes table t τ) ∧
      ∀ τ, Ty.ofExpr? table te = some τ → ∃ t, describe registry base te = .ok t ∧ Denotes table t τ := by
  induction h with
  | @intro path tes loc hstart _ ih =>
    have hpath : path.toList.head? ≠ some '.' := by
      obtain ⟨c, rest, hc, hname⟩ := hstart
      rw [hc]
      rintro ⟨⟩
      exact absurd hname (by decide)
    constructor
    · intro t ht
      obtain ⟨owner, e, ts, hlookup, harity, hts, rfl⟩ := describe_ok.mp ht
      rw [hsame] at hlookup
      obtain ⟨args, hargs, hdenotes⟩ := forall₂_join (describeAll_ok.mp hts) fun te hte => (ih te hte).1
      exact ⟨_, Ty.ofExpr?_eq_some_iff.mpr ⟨owner, e, args, hlookup, harity, Ty.ofExprs?_eq_some_iff.mpr hargs, rfl⟩,
        denotes_ofFullName hpath hlookup _ hdenotes⟩
    · intro τ hτ
      obtain ⟨owner, e, args, hlookup, harity, hargs, rfl⟩ := Ty.ofExpr?_eq_some_iff.mp hτ
      obtain ⟨ts, hts, hdenotes⟩ := forall₂_join (T := fun τ t => Denotes table t τ) (Ty.ofExprs?_eq_some_iff.mp hargs)
        fun te hte => (ih te hte).2
      exact ⟨_, describe_ok.mpr ⟨owner, e, ts, hsame ▸ hlookup, harity, describeAll_ok.mpr hts, rfl⟩,
        denotes_ofFullName hpath hlookup _ hdenotes.flip⟩

/-! ### Types that are extended -/

/-- Both ways take the base of a type from the same text. -/
theorem base_of_describe {te : TypeExpr} {t : TypeDescriptor} (ht : describe registry base te = .ok t) {τ : Ty}
    (hτ : Ty.ofExpr? table te = some τ) :
    ∃ text : Option String, t.base = text.bind base ∧ τ.base? table = text.map (Ty.ofText table) := by
  obtain ⟨path, tes, loc⟩ := te
  obtain ⟨owner, e, ts, hlookup, -, -, rfl⟩ := describe_ok.mp ht
  obtain ⟨owner', e', args, hlookup', -, -, rfl⟩ := Ty.ofExpr?_eq_some_iff.mp hτ
  rw [hsame, hlookup'] at hlookup
  obtain ⟨rfl, rfl⟩ := Prod.mk.inj (Option.some.inj hlookup)
  refine ⟨e'.base, TypeDescriptor.base_ofFullName, ?_⟩
  rw [Ty.base?, ExportTable.lookup_name hlookup']
  rfl

/-- A text either is a type for both or for none. -/
theorem base?_denotes (k : Nat) (text : String) :
    (base? registry (k + 1) text = none ∧ Ty.ofText table text = .error) ∨
      ∃ u, base? registry (k + 1) text = some u ∧ Denotes table u (Ty.ofText table text) ∧
        ∃ next : Option String, u.base = next.bind (base? registry k) ∧
          (Ty.ofText table text).base? table = next.map (Ty.ofText table) := by
  rw [base?, Ty.ofText]
  cases hte : TypeExpr.ofText? text with
  | none => exact .inl ⟨rfl, rfl⟩
  | some te =>
    obtain ⟨hdescribe, hof⟩ := describe_denotes hsame (TypeExpr.rooted_of_text hte) (base? registry k)
    rw [Option.bind_some, Option.bind_some]
    cases hu : describe registry (base? registry k) te with
    | ok u =>
      obtain ⟨τ, hτ, hdenotes⟩ := hdescribe u hu
      refine .inr ⟨u, rfl, ?_⟩
      rw [hτ]
      exact ⟨hdenotes, base_of_describe hsame hu hτ⟩
    | error defect =>
      refine .inl ⟨rfl, ?_⟩
      cases hτ : Ty.ofExpr? table te with
      | none => rfl
      | some τ =>
        obtain ⟨u, hu', -⟩ := hof τ hτ
        cases hu.symm.trans hu'

/-- The types that are met within so many steps are those that a descriptor carries if its base was built with as
many. -/
theorem reaches_iff {k : Nat} {text : Option String} {t : TypeDescriptor} (h : t.base = text.bind (base? registry k))
    {target : Ty} (htarget : target ≠ .error) :
    Ty.reaches table target k (text.map (Ty.ofText table)) = true ↔ ∃ s ∈ t.bases, Denotes table s target := by
  induction k generalizing text t with
  | zero =>
    have hnone : t.base = none := by rw [h]; cases text <;> rfl
    simp [Ty.reaches, TypeDescriptor.bases_of_none hnone]
  | succ k ih =>
    cases text with
    | none => simp [Ty.reaches, TypeDescriptor.bases_of_none h]
    | some text =>
      rw [Option.map_some, Ty.reaches, Bool.or_eq_true, decide_eq_true_eq]
      rw [Option.bind_some] at h
      rcases base?_denotes hsame k text with ⟨hnone, herror⟩ | ⟨u, hu, hdenotes, next, hnext, hbase⟩
      · have hend : Ty.reaches table target k ((Ty.error).base? table) = false := by cases k <;> rfl
        simp [TypeDescriptor.bases_of_none (h.trans hnone), herror, hend, htarget.symm]
      · rw [hbase, ih hnext, TypeDescriptor.bases_of_some (h.trans hu), List.exists_mem_cons_iff]
        refine or_congr_left ⟨fun e => e ▸ hdenotes, hdenotes.unique _⟩

/-- Every type that a descriptor carries as a base stands for a type of the checker. -/
theorem denotes_of_mem_bases {k : Nat} {text : Option String} {t : TypeDescriptor}
    (h : t.base = text.bind (base? registry k)) : ∀ s ∈ t.bases, ∃ σ, Denotes table s σ := by
  induction k generalizing text t with
  | zero =>
    have hnone : t.base = none := by rw [h]; cases text <;> rfl
    simp [TypeDescriptor.bases_of_none hnone]
  | succ k ih =>
    cases hbase : t.base with
    | none => simp [TypeDescriptor.bases_of_none hbase]
    | some u =>
      obtain ⟨text, -, hu⟩ := Option.bind_eq_some_iff.mp (h.symm.trans hbase)
      rcases base?_denotes hsame k text with ⟨hnone, -⟩ | ⟨u', hu', hdenotes, next, hnext, -⟩
      · cases hnone.symm.trans hu
      · obtain rfl := Option.some.inj (hu.symm.trans hu')
        rw [TypeDescriptor.bases_of_some hbase]
        exact List.forall_mem_cons.mpr ⟨⟨_, hdenotes⟩, ih hnext⟩

end Agreement

/-! ### Both ways -/

/-- The descriptor and the type of the checker are the same exported type with the same arguments, and what the one
carries as its bases is what the other extends. -/
structure Agree (table : ExportTable) (t : TypeDescriptor) (τ : Ty) : Prop where
  denotes : Denotes table t τ
  bases : ∀ s ∈ t.bases, ∃ σ, Denotes table s σ
  derives : ∀ target, target ≠ .error → (τ.derivesFrom table target = true ↔ ∃ s ∈ t.bases, Denotes table s target)

/-- Documents and the checker resolve a text alike over the same modules and namespaces: it is a type for both or for
none, the same type for both, and one that extends the same types. -/
theorem resolve_agrees {refs : List Reference} {namespaces : List String} (h : registry.Filled refs namespaces)
    (text : String) :
    let table := Flow.exportTable refs namespaces
    ((∃ t, resolve registry text = .ok t) ↔ Ty.ofText table text ≠ .error) ∧
      ∀ t, resolve registry text = .ok t → Agree table t (Ty.ofText table text) := by
  intro table
  have hsame := h.lookup
  have hresolve (t : TypeDescriptor) : resolve registry text = .ok t ↔
      base? registry (maxBaseDepth + 1) text = some t := by
    rw [resolve, base?_succ]
    cases TypeExpr.ofText? text <;> simp
  simp only [hresolve]
  rcases base?_denotes hsame maxBaseDepth text with ⟨hnone, herror⟩ | ⟨u, hu, hdenotes, next, hnext, hbase⟩
  · simp [hnone, table, herror]
  · refine ⟨iff_of_true ⟨u, hu⟩ hdenotes.ne_error, fun t ht => ?_⟩
    obtain rfl := Option.some.inj (hu.symm.trans ht)
    refine ⟨hdenotes, denotes_of_mem_bases hsame hnext, fun target htarget => ?_⟩
    rw [Ty.derivesFrom, hbase, show Flow.maxBaseDepth = maxBaseDepth from rfl, reaches_iff hsame hnext htarget]

/-- Two types extend each other, and one of them is exported twice; the argument has a base that is no type. -/
theorem resolve_agrees_cyclic :
    let first : Reference := ⟨⟨1, "First", .static, none, none⟩, "First", [⟨"L.A", 0, some "B", []⟩,
      ⟨"L.B", 0, some "L.A", []⟩, ⟨"L.C", 0, some "A<", []⟩, ⟨"L.D", 1, some "A", []⟩], .file⟩
    let second : Reference := ⟨⟨2, "Second", .dynamic, none, none⟩, "Second", [⟨"L.A", 0, none, []⟩], .file⟩
    let registry := (((ExportTable.empty.add first.owner first.exports).importNamespace "L").add second.owner
      second.exports).importNamespace "L"
    let table := Flow.exportTable [first, second] ["L", "L"]
    registry.Filled [first, second] ["L", "L"] ∧ ∃ t, resolve registry "D<C>" = .ok t ∧ t.bases.length = 32 ∧
      Agree table t (.named "L.D" [.named "L.C" []]) ∧ ∃ s ∈ t.bases, Denotes table s (.named "L.B" []) := by
  intro first second registry table
  have hfilled : registry.Filled [first, second] ["L", "L"] :=
    .importNamespace _ (.add second (.importNamespace _ (.add first .empty)))
  have hchecked : Ty.ofText table "D<C>" = .named "L.D" [.named "L.C" []] := by decide +kernel +zetaReduce
  have hlength : (resolve registry "D<C>").toOption.map (·.bases.length) = some 32 := by decide +kernel +zetaReduce
  obtain ⟨hiff, hagrees⟩ := resolve_agrees hfilled "D<C>"
  obtain ⟨t, ht⟩ := hiff.mpr (hchecked ▸ nofun)
  have hagree := hagrees t ht
  rw [hchecked] at hagree
  rw [ht] at hlength
  have hderives : (Ty.named "L.D" [.named "L.C" []]).derivesFrom table (.named "L.B" []) = true := by
    decide +kernel +zetaReduce
  exact ⟨hfilled, t, ht, Option.some.inj hlength, hagree, (hagree.derives _ (by decide)).mp hderives⟩

end Workflow

end FlowCheck
