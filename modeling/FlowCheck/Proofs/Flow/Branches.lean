import Mathlib.Logic.Relation
import FlowCheck.Proofs.Flow.Ancestry
import FlowCheck.Proofs.Flow.Lookup
import FlowCheck.Proofs.Flow.TypeName

/-! The branches of a conditional in either order. A conditional has the type of the branch that the other converts to,
    and the first direction is tried first. The order of the branches does not matter as long as no two types convert
    to each other: a type and one that it derives from do not unless exported types extend each other in a circle, and
    the conversions that are no derivations start or end at types of the core module, which extend nothing but
    `Core.Object`. -/

namespace FlowCheck.Flow

variable {table : ExportTable}

/-! ### Exported types that extend others -/

/-- The type that is exported under the first name extends that under the second. -/
def Extends (table : ExportTable) (name base : String) : Prop :=
  ∃ found text args, table.find? name = some found ∧ found.2.base = some text ∧
    Ty.ofText table text = .named base args

/-- No exported type extends itself, directly or through others. -/
def AcyclicBases (table : ExportTable) : Prop := ∀ name, ¬ Relation.TransGen (Extends table) name name

/-- What an exported type extends, if anything, has a lower rank. -/
def descends (table : ExportTable) (rank : String → Nat) (e : TypeExport) : Bool :=
  match e.base.map (Ty.ofText table) with
  | some (.named base _) => rank base < rank e.name
  | _ => true

theorem acyclicBases_of_rank (rank : String → Nat) (h : ∀ entry ∈ table.entries, descends table rank entry.2 = true) :
    AcyclicBases table := by
  have hstep {name base : String} (hext : Extends table name base) : rank base < rank name := by
    obtain ⟨found, text, args, hfound, hbase, htext⟩ := hext
    have hname : found.2.name = name := by simpa using List.find?_some hfound
    have hlower := h found (List.mem_of_find?_eq_some hfound)
    rw [descends, hbase, Option.map_some, htext, hname] at hlower
    exact of_decide_eq_true hlower
  have hdown {name base : String} (hext : Relation.TransGen (Extends table) name base) : rank base < rank name := by
    induction hext with
    | single hlast => exact hstep hlast
    | tail _ hlast ih => exact Nat.lt_trans (hstep hlast) ih
  exact fun name hcycle => Nat.lt_irrefl _ (hdown hcycle)

theorem exported_of_ofText {text name : String} {args : List Ty} (h : Ty.ofText table text = .named name args) :
    (table.find? name).isSome := by
  unfold Ty.ofText at h
  cases hte : (TypeExpr.ofText? text).bind (Ty.ofExpr? table) with
  | none => rw [hte] at h; cases h
  | some t =>
    rw [hte] at h
    obtain rfl : t = .named name args := h
    obtain ⟨⟨path, tes, loc⟩, -, ht⟩ := Option.bind_eq_some_iff.mp hte
    obtain ⟨owner, e, args', hlookup, -, -, hname⟩ := Ty.ofExpr?_eq_some_iff.mp ht
    obtain ⟨rfl, -⟩ := Ty.named.inj hname
    rw [ExportTable.find?_of_lookup hlookup]
    rfl

theorem Ty.base?_eq_some_iff {t s : Ty} : t.base? table = some s ↔ ∃ name args found text, t = .named name args ∧
    table.lookup name = some found ∧ found.2.base = some text ∧ Ty.ofText table text = s := by
  cases t with
  | named name args => simp [Ty.base?, Option.bind_eq_some_iff]
  | null | error => simp [Ty.base?]

theorem Ty.exported_of_ancestor {k : Nat} {t : Ty} {name : String} {args : List Ty}
    (h : t.ancestor? table (k + 1) = some (.named name args)) : (table.find? name).isSome := by
  induction k generalizing t with
  | zero =>
    obtain ⟨s, hs, hname⟩ := Option.bind_eq_some_iff.mp h
    obtain rfl := Option.some.inj hname
    obtain ⟨_, _, _, _, -, -, -, htext⟩ := Ty.base?_eq_some_iff.mp hs
    exact exported_of_ofText htext
  | succ k ih =>
    obtain ⟨s, -, hname⟩ := Option.bind_eq_some_iff.mp h
    exact ih hname

theorem Ty.extends_of_base {name base : String} {args args' : List Ty} (hname : (table.find? name).isSome)
    (h : (Ty.named name args).base? table = some (.named base args')) : Extends table name base := by
  obtain ⟨found, hfound⟩ := Option.isSome_iff_exists.mp hname
  obtain ⟨_, _, found', text, hself, hlookup, hbase, htext⟩ := Ty.base?_eq_some_iff.mp h
  obtain ⟨rfl, -⟩ := Ty.named.inj hself
  rw [ExportTable.lookup, hfound, Option.some_or] at hlookup
  obtain rfl := Option.some.inj hlookup
  exact ⟨found, text, args', hfound, hbase, htext⟩

theorem Ty.extends_of_ancestor {k : Nat} {name base : String} {args args' : List Ty}
    (hname : (table.find? name).isSome)
    (h : (Ty.named name args).ancestor? table (k + 1) = some (.named base args')) :
    Relation.TransGen (Extends table) name base := by
  induction k generalizing name args with
  | zero =>
    obtain ⟨s, hs, hbase⟩ := Option.bind_eq_some_iff.mp h
    obtain rfl := Option.some.inj hbase
    exact .single (Ty.extends_of_base hname hs)
  | succ k ih =>
    obtain ⟨s, hs, hbase⟩ := Option.bind_eq_some_iff.mp h
    cases s with
    | null | error => cases hbase
    | named next args'' =>
      obtain ⟨_, _, _, _, -, -, -, htext⟩ := Ty.base?_eq_some_iff.mp hs
      exact .head (Ty.extends_of_base hname hs) (ih (exported_of_ofText htext) hbase)

/-- Without a circle no two types derive from each other. -/
theorem AcyclicBases.derivesFrom_asymm (h : AcyclicBases table) {name name' : String} {args args' : List Ty}
    (hfrom : (Ty.named name args).derivesFrom table (.named name' args') = true) :
    (Ty.named name' args').derivesFrom table (.named name args) = false := by
  refine Bool.eq_false_iff.mpr fun hback => ?_
  obtain ⟨j, -, hj⟩ := Ty.derivesFrom_iff.mp hfrom
  obtain ⟨k, -, hk⟩ := Ty.derivesFrom_iff.mp hback
  have hdown := Ty.extends_of_ancestor (Ty.exported_of_ancestor hk) hj
  have hup := Ty.extends_of_ancestor (Ty.exported_of_ancestor hj) hk
  exact h name (hdown.trans hup)

/-! ### Types of the core module -/

/-- The names of the core module's types mean these types. -/
def HoldsCore (table : ExportTable) : Prop := ∀ e ∈ coreExports, ∃ owner, table.lookup e.name = some (owner, e)

/-- What the first of the linked modules exports is found. -/
theorem holdsCore_exportTable {core : Reference} (hcore : core.exports = coreExports) (rest : List Reference)
    (namespaces : List String) : HoldsCore (exportTable (core :: rest) namespaces) := by
  have hfirst : ∀ e ∈ coreExports, coreExports.find? (·.name == e.name) = some e := by decide
  intro e he
  have hfind : (exportTable (core :: rest) namespaces).find? e.name = some (core.owner, e) := by
    simp only [ExportTable.find?, exportTable, List.flatMap_cons, hcore, List.find?_append, List.find?_map]
    rw [show coreExports.find? ((·.2.name == e.name) ∘ (core.owner, ·)) = some e from hfirst e he]
    rfl
  exact ⟨core.owner, by rw [ExportTable.lookup, hfind, Option.some_or]⟩

section Core

variable (hcore : HoldsCore table)
include hcore

theorem HoldsCore.base?_object : Ty.object.base? table = none := by
  obtain ⟨owner, hlookup⟩ := hcore { name := "Core.Object" } (by decide)
  rw [Ty.object, Ty.base?, hlookup]
  rfl

theorem HoldsCore.ofText_object : Ty.ofText table "Core.Object" = .object := by
  have hpath : IsPath "Core.Object" := by decide +kernel
  obtain ⟨loc, hte⟩ := hpath.read
  obtain ⟨owner, hlookup⟩ := hcore { name := "Core.Object" } (by decide)
  rw [Ty.ofText, hte, Option.bind_some, Ty.ofExpr?_eq_some_iff.mpr ⟨owner, _, [], hlookup, rfl, rfl, rfl⟩]
  rfl

theorem HoldsCore.base?_number {t : Ty} (ht : t = .int ∨ t = .float) : t.base? table = some .object := by
  rcases ht with rfl | rfl
  · obtain ⟨owner, hlookup⟩ := hcore { name := "Core.Int", base := "Core.Object" } (by decide)
    exact Ty.base?_eq_some_iff.mpr ⟨_, _, _, _, rfl, hlookup, rfl, hcore.ofText_object⟩
  · obtain ⟨owner, hlookup⟩ := hcore { name := "Core.Float", base := "Core.Object" } (by decide)
    exact Ty.base?_eq_some_iff.mpr ⟨_, _, _, _, rfl, hlookup, rfl, hcore.ofText_object⟩

theorem HoldsCore.derivesFrom_object (t : Ty) : Ty.object.derivesFrom table t = false := by
  refine Bool.eq_false_iff.mpr fun h => ?_
  obtain ⟨k, -, hk⟩ := Ty.derivesFrom_iff.mp h
  rw [Ty.ancestor?, hcore.base?_object] at hk
  cases hk

/-- The types of numbers derive from `Core.Object` only. -/
theorem HoldsCore.eq_object {s t : Ty} (hs : s = .int ∨ s = .float) (h : s.derivesFrom table t = true) :
    t = .object := by
  obtain ⟨k, -, hk⟩ := Ty.derivesFrom_iff.mp h
  rw [Ty.ancestor?, hcore.base?_number hs, Option.bind_some] at hk
  cases k with
  | zero => exact (Option.some.inj hk).symm
  | succ k =>
    rw [Ty.ancestor?, hcore.base?_object] at hk
    cases hk

end Core

/-! ### Conversions both ways -/

theorem Ty.converts_named_iff {name name' : String} {args args' : List Ty} :
    (Ty.named name args).converts table (.named name' args') = true ↔
      Ty.named name args = .named name' args' ∨ (Ty.named name args = .int ∧ Ty.named name' args' = .float) ∨
        Ty.named name' args' = .object ∨ (Ty.named name args).derivesFrom table (.named name' args') = true := by
  simp only [Ty.converts, Bool.or_eq_true, Bool.and_eq_true, decide_eq_true_eq, or_assoc]

theorem HoldsCore.eq_object_of_converts (hcore : HoldsCore table) {t : Ty} (ht : t ≠ .error)
    (h : Ty.object.converts table t = true) : t = .object := by
  rcases t with ⟨name, args⟩ | _ | _
  · rcases Ty.converts_named_iff.mp h with hsame | ⟨hint, -⟩ | hobject | hderives
    · exact hsame.symm
    · exact absurd hint (by decide)
    · exact hobject
    · cases (hcore.derivesFrom_object _).symm.trans hderives
  · cases h
  · exact absurd rfl ht

theorem HoldsCore.not_converts_int (hcore : HoldsCore table) : Ty.float.converts table .int = false := by
  refine Bool.eq_false_iff.mpr fun h => ?_
  rcases Ty.converts_named_iff.mp h with hsame | ⟨hint, -⟩ | hobject | hderives
  · exact absurd hsame (by decide)
  · exact absurd hint (by decide)
  · exact absurd hobject (by decide)
  · exact absurd (hcore.eq_object (.inr rfl) hderives) (by decide)

/-- Two types that convert to each other are one. -/
theorem converts_antisymm (hcore : HoldsCore table) (hacyclic : AcyclicBases table) {s t : Ty} (hs : s ≠ .error)
    (ht : t ≠ .error) (hto : s.converts table t = true) (hfrom : t.converts table s = true) : s = t := by
  rcases s with ⟨name, args⟩ | _ | _ <;> rcases t with ⟨name', args'⟩ | _ | _
  case named.named =>
    rcases Ty.converts_named_iff.mp hto with hsame | ⟨hint, hfloat⟩ | hobject | hderives
    · exact hsame
    · rw [hint, hfloat, hcore.not_converts_int] at hfrom
      cases hfrom
    · rw [hobject] at hfrom
      exact (hcore.eq_object_of_converts hs hfrom).trans hobject.symm
    · rcases Ty.converts_named_iff.mp hfrom with hsame | ⟨hint, hfloat⟩ | hobject | hback
      · exact hsame.symm
      · exact absurd (hint.symm.trans (hcore.eq_object (.inr hfloat) hderives)) (by decide)
      · rw [hobject, hcore.derivesFrom_object] at hderives
        cases hderives
      · rw [hacyclic.derivesFrom_asymm hderives] at hback
        cases hback
  case null.null => rfl
  case named.null => cases hto
  case null.named => cases hfrom
  all_goals contradiction

/-- Two types give a conditional the same type in either order, or none in both. -/
theorem branchType_swapped (hcore : HoldsCore table) (hacyclic : AcyclicBases table) (s t : Ty) (loc : Location) :
    (∃ u, branchType table s t loc = .clean u ∧ branchType table t s loc = .clean u) ∨
      ∃ p p' : Problem, p.code = "FX0173" ∧ p'.code = "FX0173" ∧
        branchType table s t loc = .report p loc ∧ branchType table t s loc = .report p' loc := by
  unfold branchType
  by_cases herror : s = .error ∨ t = .error
  · exact .inl ⟨.error, if_pos herror, if_pos herror.symm⟩
  rw [if_neg herror, if_neg (mt Or.symm herror)]
  obtain ⟨hs, ht⟩ := not_or.mp herror
  by_cases hto : s.converts table t = true <;> by_cases hfrom : t.converts table s = true
  · obtain rfl := converts_antisymm hcore hacyclic hs ht hto hfrom
    exact .inl ⟨s, if_pos hto, if_pos hto⟩
  · exact .inl ⟨t, if_pos hto, by rw [if_neg hfrom, if_pos hto]⟩
  · exact .inl ⟨s, by rw [if_neg hto, if_pos hfrom], if_pos hfrom⟩
  · refine .inr ⟨.branchesDisagree s.display t.display, .branchesDisagree t.display s.display, rfl, rfl, ?_, ?_⟩
    · rw [if_neg hto, if_neg hfrom]
    · rw [if_neg hfrom, if_neg hto]

/-- What is reported of the test and the branches of a conditional, before the types of the branches are compared. -/
def reportedInside (table : ExportTable) (context : Context) (test positive negative : Expr) : List Diagnostic :=
  (typeOf table context test).diagnostics ++ testProblems table test (typeOf table context test).type ++
    (typeOf table context positive).diagnostics ++ (typeOf table context negative).diagnostics

theorem typeOf_conditional (context : Context) (test positive negative : Expr) (loc : Location) :
    typeOf table context (.conditional test positive negative loc) =
      .after (reportedInside table context test positive negative)
        (branchType table (typeOf table context positive).type (typeOf table context negative).type loc) := rfl

/-- If no exported type extends itself, conversion both ways is equality, and so a conditional and the one with its
branches swapped have one type, or both are rejected. -/
theorem conditional_swapped {core : Reference} (hcore : core.exports = coreExports) (rest : List Reference)
    (namespaces : List String) (hacyclic : AcyclicBases (exportTable (core :: rest) namespaces)) :
    let table := exportTable (core :: rest) namespaces
    (∀ s t : Ty, s ≠ .error → t ≠ .error → s.converts table t = true → t.converts table s = true → s = t) ∧
      ∀ context test positive negative loc,
        let found := typeOf table context (.conditional test positive negative loc)
        let swapped := typeOf table context (.conditional test negative positive loc)
        let inside := reportedInside table context test positive negative
        let insideSwapped := reportedInside table context test negative positive
        (∃ t, found = ⟨t, inside⟩ ∧ swapped = ⟨t, insideSwapped⟩) ∨
          ∃ d d' : Diagnostic, d.code = "FX0173" ∧ d'.code = "FX0173" ∧
            found = ⟨.error, inside ++ [d]⟩ ∧ swapped = ⟨.error, insideSwapped ++ [d']⟩ := by
  intro table
  have hholds : HoldsCore table := holdsCore_exportTable hcore rest namespaces
  refine ⟨fun s t hs ht => converts_antisymm hholds hacyclic hs ht, ?_⟩
  intro context test positive negative loc
  dsimp only
  rw [typeOf_conditional, typeOf_conditional]
  rcases branchType_swapped hholds hacyclic (typeOf table context positive).type
    (typeOf table context negative).type loc with ⟨t, hfound, hswapped⟩ | ⟨p, p', hp, hp', hfound, hswapped⟩
  · rw [hfound, hswapped]
    exact .inl ⟨t, by simp [Typed.after, Typed.clean], by simp [Typed.after, Typed.clean]⟩
  · rw [hfound, hswapped]
    exact .inr ⟨p.located loc, p'.located loc, hp, hp', rfl, rfl⟩

/-- A type, one that it extends through another, and numbers. -/
theorem conditional_swapped_derived :
    let core : Reference := ⟨coreModule 0, "Core", coreExports, .metadata⟩
    let sales : Reference := ⟨⟨1, "Sales", .static, none, none⟩, "Sales", [{ name := "Sales.Order", base := "Dated" },
      { name := "Sales.Dated", base := "Sales.Entity" }, { name := "Sales.Entity", base := "Core.Object" }], .metadata⟩
    let table := exportTable [core, sales] ["Sales"]
    let context : Context := [("ready", .bool), ("order", .named "Sales.Order" []), ("entity", .named "Sales.Entity" [])]
    let pick (positive negative : Expr) : Expr := .conditional (.name "ready" default) positive negative default
    core.exports = coreExports ∧ AcyclicBases table ∧
      typeOf table context (pick (.name "order" default) (.name "entity" default)) =
        typeOf table context (pick (.name "entity" default) (.name "order" default)) ∧
      (typeOf table context (pick (.name "order" default) (.name "entity" default))).type =
        .named "Sales.Entity" [] := by
  intro core sales table context pick
  let rank (name : String) : Nat := (["Sales.Entity", "Sales.Dated", "Sales.Order"].idxOf? name).elim
    (if name = "Core.Object" then 0 else 1) (· + 1)
  have hacyclic : AcyclicBases table := acyclicBases_of_rank rank (by decide +kernel +zetaReduce)
  have htype : (typeOf table context (pick (.name "order" default) (.name "entity" default))).type =
      .named "Sales.Entity" [] := by decide +kernel +zetaReduce
  have hcore : core.exports = coreExports := rfl
  refine ⟨hcore, hacyclic, ?_, htype⟩
  have hswapped := (conditional_swapped hcore [sales] ["Sales"] hacyclic).2 context (.name "ready" default)
    (.name "order" default) (.name "entity" default) default
  rcases hswapped with ⟨t, hfound, hswapped⟩ | ⟨_, _, -, -, hfound, -⟩
  · exact hfound.trans hswapped.symm
  · rw [show typeOf table context (pick _ _) = _ from hfound] at htype
    cases htype

end FlowCheck.Flow
