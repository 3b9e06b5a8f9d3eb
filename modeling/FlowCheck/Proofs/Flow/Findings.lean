import FlowCheck.Proofs.Flow.Reporting
import FlowCheck.Proofs.Flow.Stage

/-! What the checker finds. All of it is about types, and that a name stands for no parameter is said of the names
    in an expression only. -/

namespace FlowCheck.Flow

/-- The problem is about types, and not about a name. -/
def Problem.OfUse (p : Problem) : Prop := p.ofForm = false ∧ ∀ name, p ≠ .unknownName name

variable (table : ExportTable)

/-! ### Types that are written -/

mutual
theorem typeOfExpr_allOf : ∀ t : TypeExpr, AllOf Problem.OfUse (typeOfExpr table t).diagnostics
  | ⟨path, args, loc⟩ => by
    simp only [typeOfExpr, Typed.after, allOf_append]
    refine ⟨typesOfExprs_allOf args, ?_⟩
    split
    · exact allOf_located ⟨rfl, nofun⟩ loc
    · split
      · exact allOf_located ⟨rfl, nofun⟩ loc
      · split <;> exact allOf_nil
theorem typesOfExprs_allOf : ∀ ts : List TypeExpr, AllOf Problem.OfUse (typesOfExprs table ts).2
  | [] => allOf_nil
  | t :: ts => allOf_append.mpr ⟨typeOfExpr_allOf t, typesOfExprs_allOf ts⟩
end

theorem contextOf_allOf (ps : List Param) : AllOf Problem.OfUse (contextOf table ps).2 := by
  rw [contextOf_eq]
  intro d hd
  obtain ⟨p, -, hd⟩ := List.mem_flatMap.mp hd
  exact typeOfExpr_allOf table p.type d hd

/-! ### Expressions -/

section Rules

variable {loc : Location}

theorem memberType_allOf (target : Ty) (field : String) :
    AllOf Problem.OfUse (memberType table target field loc).diagnostics := by
  unfold memberType
  split
  · exact allOf_nil
  · exact allOf_located ⟨rfl, nofun⟩ loc
  · split
    · exact allOf_nil
    · exact allOf_located ⟨rfl, nofun⟩ loc

omit table in
theorem unaryType_allOf (op : UnaryOp) (operand : Ty) :
    AllOf Problem.OfUse (unaryType op operand loc).diagnostics := by
  unfold unaryType
  split
  · exact allOf_nil
  · split
    · exact allOf_nil
    · exact allOf_located ⟨rfl, nofun⟩ loc

theorem binaryType_allOf (op : BinaryOp) (left right : Ty) :
    AllOf Problem.OfUse (binaryType table op left right loc).diagnostics := by
  unfold binaryType
  split
  · exact allOf_nil
  · split
    · exact allOf_nil
    · exact allOf_located ⟨rfl, nofun⟩ loc

theorem testProblems_allOf (test : Expr) (type : Ty) : AllOf Problem.OfUse (testProblems table test type) := by
  unfold testProblems
  split
  · split
    · exact allOf_located ⟨rfl, nofun⟩ _
    · exact allOf_nil
  · exact allOf_located ⟨rfl, nofun⟩ _

theorem branchType_allOf (positive negative : Ty) :
    AllOf Problem.OfUse (branchType table positive negative loc).diagnostics := by
  unfold branchType
  split
  · exact allOf_nil
  · split
    · exact allOf_nil
    · split
      · exact allOf_nil
      · exact allOf_located ⟨rfl, nofun⟩ loc

theorem bodyProblems_allOf (byRef : Bool) (body : Expr) (type declared : Ty) :
    AllOf Problem.OfUse (bodyProblems table byRef body type declared) := by
  unfold bodyProblems
  split
  · split
    · exact allOf_located ⟨rfl, nofun⟩ _
    · split
      · exact allOf_located ⟨rfl, nofun⟩ _
      · exact allOf_nil
  · split
    · exact allOf_nil
    · exact allOf_located ⟨rfl, nofun⟩ _

end Rules

theorem AllOf.ofTypes {ds : List Diagnostic} (h : AllOf Problem.OfUse ds) : AllOf (·.ofForm = false) ds :=
  h.imp fun _ => And.left

theorem typeOf_allOf (context : Context) (e : Expr) :
    AllOf (·.ofForm = false) (typeOf table context e).diagnostics := by
  induction e with
  | int | float | string | bool | null => exact allOf_nil
  | name name loc =>
    rw [typeOf]
    split
    · exact allOf_nil
    · exact allOf_located (S := (·.ofForm = false)) rfl loc
  | member target field loc ih => exact allOf_append.mpr ⟨ih, (memberType_allOf table _ _).ofTypes⟩
  | unary op operand loc ih => exact allOf_append.mpr ⟨ih, (unaryType_allOf _ _).ofTypes⟩
  | binary op left right loc ihl ihr =>
    exact allOf_append.mpr ⟨allOf_append.mpr ⟨ihl, ihr⟩, (binaryType_allOf table _ _ _).ofTypes⟩
  | conditional test positive negative loc iht ihp ihn =>
    have htest := (testProblems_allOf table test (typeOf table context test).type).ofTypes
    exact allOf_append.mpr ⟨allOf_append.mpr ⟨allOf_append.mpr ⟨allOf_append.mpr ⟨iht, htest⟩, ihp⟩, ihn⟩,
      (branchType_allOf table _ _).ofTypes⟩

/-! ### Items -/

theorem checkItem_allOf (item : Item) : AllOf (·.ofForm = false) (checkItem table item) := by
  simp only [checkItem, allOf_append]
  exact ⟨⟨⟨(contextOf_allOf table _).ofTypes, (typeOfExpr_allOf table _).ofTypes⟩, typeOf_allOf table _ _⟩,
    (bodyProblems_allOf table _ _ _ _).ofTypes⟩

end FlowCheck.Flow
