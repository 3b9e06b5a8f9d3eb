import FlowCheck.Flow.Language

/-! What stands behind an expression without a type. That an expression has no type is reported where it comes
    about: at an unknown name, a type that is none, an operator or a member that does not fit. The one silent
    source is a field that a module exports with a type that no linked module has: taking that member gives no
    type and no report. -/

namespace FlowCheck.Flow

/-- An error is among the diagnostics. -/
def Reported (ds : List Diagnostic) : Prop := ∃ d ∈ ds, d.isError = true

theorem reported_append {ds es : List Diagnostic} : Reported (ds ++ es) ↔ Reported ds ∨ Reported es := by
  simp only [Reported, List.mem_append, or_and_right, exists_or]

theorem reported_located {p : Problem} (hp : p.severity = .error) (loc : Location) : Reported [p.located loc] :=
  ⟨_, .head _, beq_iff_eq.mpr hp⟩

theorem Typed.reported_report {p : Problem} (hp : p.severity = .error) (loc : Location) :
    Reported (Typed.report p loc).diagnostics := reported_located hp loc

/-! ### Types that are written -/

section Written

variable (table : ExportTable)

mutual
/-- A type that is written and is none is reported. -/
theorem typeOfExpr_reported : ∀ t : TypeExpr, (typeOfExpr table t).type = .error →
    Reported (typeOfExpr table t).diagnostics
  | ⟨path, args, loc⟩, h => by
    simp only [typeOfExpr, Typed.after] at h ⊢
    rw [reported_append]
    cases hfound : table.lookup path with
    | none => exact .inr (Typed.reported_report rfl loc)
    | some found =>
      obtain ⟨owner, e⟩ := found
      simp only [hfound] at h
      dsimp only
      split at h
      · rename_i harity
        rw [if_pos harity]
        exact .inr (Typed.reported_report rfl loc)
      · split at h
        · rename_i harg
          exact .inl (typesOfExprs_reported args harg)
        · cases h
/-- Of some types that are written one is none: it is reported. -/
theorem typesOfExprs_reported : ∀ ts : List TypeExpr, .error ∈ (typesOfExprs table ts).1 →
    Reported (typesOfExprs table ts).2
  | [], h => nomatch h
  | t :: ts, h => by
    simp only [typesOfExprs, List.mem_cons] at h ⊢
    rw [reported_append]
    exact h.imp (fun ht => typeOfExpr_reported t ht.symm) (typesOfExprs_reported ts)
end

end Written

/-! ### Parameters -/

theorem contextOf_eq (table : ExportTable) (ps : List Param) : contextOf table ps =
    ((ps.map fun p => (p.name, (typeOfExpr table p.type).type)).reverse,
      ps.flatMap fun p => (typeOfExpr table p.type).diagnostics) := by
  suffices hfold : ∀ found : Context × List Diagnostic,
      ps.foldl (fun found p => ((p.name, (typeOfExpr table p.type).type) :: found.1,
        found.2 ++ (typeOfExpr table p.type).diagnostics)) found =
      ((ps.map fun p => (p.name, (typeOfExpr table p.type).type)).reverse ++ found.1,
        found.2 ++ ps.flatMap fun p => (typeOfExpr table p.type).diagnostics) by
    rw [contextOf, hfold]
    simp
  induction ps with
  | nil => simp
  | cons p ps ih => intro found; simp [ih]

/-- A parameter without a type is reported. -/
theorem contextOf_reported {table : ExportTable} {ps : List Param} {name : String}
    (h : (name, .error) ∈ (contextOf table ps).1) : Reported (contextOf table ps).2 := by
  rw [contextOf_eq] at h ⊢
  obtain ⟨p, hp, htype⟩ := List.mem_map.mp (List.mem_reverse.mp h)
  obtain ⟨d, hd, herror⟩ := typeOfExpr_reported table p.type (Prod.mk.inj htype).2
  exact ⟨d, List.mem_flatMap.mpr ⟨p, hp, hd⟩, herror⟩

theorem mem_of_lookup {context : Context} {name : String} {t : Ty} (h : context.lookup name = some t) :
    (name, t) ∈ context := by
  induction context with
  | nil => cases h
  | cons first context ih =>
    obtain ⟨other, u⟩ := first
    rw [List.lookup_cons] at h
    by_cases hname : name = other
    · subst hname
      rw [beq_self_eq_true] at h
      cases h
      exact .head _
    · rw [beq_eq_false_iff_ne.mpr hname] at h
      exact .tail _ (ih h)

/-! ### Expressions -/

/-- The expression and all the expressions in it. -/
def Expr.parts (e : Expr) : List Expr :=
  e :: match e with
    | .member target _ _ => target.parts
    | .unary _ operand _ => operand.parts
    | .binary _ left right _ => left.parts ++ right.parts
    | .conditional test positive negative _ => test.parts ++ positive.parts ++ negative.parts
    | _ => []

theorem Expr.self_mem_parts (e : Expr) : e ∈ e.parts := by
  cases e <;> exact .head _

/-- The parts of a part are parts of the whole. -/
theorem Expr.parts_subset {e part : Expr} (hpart : part ∈ e.parts) : part.parts ⊆ e.parts := by
  induction e with
  | member _ _ _ ih | unary _ _ _ ih =>
    rcases List.mem_cons.mp hpart with rfl | hpart
    · exact List.Subset.refl _
    · exact List.subset_cons_of_subset _ (ih hpart)
  | binary op left right loc ihl ihr =>
    rcases List.mem_cons.mp hpart with rfl | hpart
    · exact List.Subset.refl _
    · refine List.subset_cons_of_subset _ ?_
      rcases List.mem_append.mp hpart with hpart | hpart
      · exact List.subset_append_of_subset_left _ (ihl hpart)
      · exact List.subset_append_of_subset_right _ (ihr hpart)
  | conditional test positive negative loc iht ihp ihn =>
    rcases List.mem_cons.mp hpart with rfl | hpart
    · exact List.Subset.refl _
    · refine List.subset_cons_of_subset _ ?_
      rcases List.mem_append.mp hpart with hpart | hpart
      · refine List.subset_append_of_subset_left _ ?_
        rcases List.mem_append.mp hpart with hpart | hpart
        · exact List.subset_append_of_subset_left _ (iht hpart)
        · exact List.subset_append_of_subset_right _ (ihp hpart)
      · exact List.subset_append_of_subset_right _ (ihn hpart)
  | _ => rw [List.mem_singleton.mp hpart]; exact List.Subset.refl _

/-- What is reported of a part is reported of the whole. -/
theorem Reported.of_part {table : ExportTable} {context : Context} {e part : Expr} (hpart : part ∈ e.parts)
    (h : Reported (typeOf table context part).diagnostics) : Reported (typeOf table context e).diagnostics := by
  induction e with
  | member target field loc ih =>
    rcases List.mem_cons.mp hpart with rfl | hpart
    · exact h
    · exact reported_append.mpr (.inl (ih hpart))
  | unary op operand loc ih =>
    rcases List.mem_cons.mp hpart with rfl | hpart
    · exact h
    · exact reported_append.mpr (.inl (ih hpart))
  | binary op left right loc ihl ihr =>
    rcases List.mem_cons.mp hpart with rfl | hpart
    · exact h
    · exact reported_append.mpr (.inl (reported_append.mpr ((List.mem_append.mp hpart).imp ihl ihr)))
  | conditional test positive negative loc iht ihp ihn =>
    rcases List.mem_cons.mp hpart with rfl | hpart
    · exact h
    · simp only [typeOf, Typed.after, reported_append]
      rcases List.mem_append.mp hpart with hpart | hpart
      · rcases List.mem_append.mp hpart with hpart | hpart
        · exact .inl (.inl (.inl (.inl (iht hpart))))
        · exact .inl (.inl (.inr (ihp hpart)))
      · exact .inl (.inr (ihn hpart))
  | _ => rwa [List.mem_singleton.mp hpart] at h

/-- A member is taken of a value whose type, or one that it extends, has a field of that name, and what the field's
export says to be its type is none. -/
def Expr.TakesDangling (table : ExportTable) (context : Context) (e : Expr) : Prop :=
  ∃ target field loc, Expr.member target field loc ∈ e.parts ∧ (typeOf table context target).type ≠ .error ∧
    (typeOf table context target).type.field? table field = some .error

section Operators

variable {table : ExportTable} {loc : Location}

theorem memberType_error {target : Ty} {field : String} (h : (memberType table target field loc).type = .error) :
    target = .error ∨ Reported (memberType table target field loc).diagnostics ∨
      target ≠ .error ∧ target.field? table field = some .error := by
  unfold memberType at h ⊢
  cases target with
  | error => exact .inl rfl
  | null => exact .inr (.inl (Typed.reported_report rfl loc))
  | named name args =>
    dsimp only at h ⊢
    cases hfield : (Ty.named name args).field? table field with
    | none => exact .inr (.inl (Typed.reported_report rfl loc))
    | some t =>
      rw [hfield] at h
      obtain rfl : t = .error := h
      exact .inr (.inr ⟨by simp, rfl⟩)

theorem UnaryOp.result_ne_error {op : UnaryOp} {operand t : Ty} (hoperand : operand ≠ .error)
    (h : op.result operand = some t) : t ≠ .error := by
  unfold UnaryOp.result at h
  cases op <;>
  · dsimp only at h
    split at h
    · cases h
      exact hoperand
    · cases h

theorem unaryType_error {op : UnaryOp} {operand : Ty} (h : (unaryType op operand loc).type = .error) :
    operand = .error ∨ Reported (unaryType op operand loc).diagnostics := by
  unfold unaryType at h ⊢
  split at h
  · rename_i hoperand
    exact .inl hoperand
  · rename_i hoperand
    rw [if_neg hoperand]
    cases hresult : op.result operand with
    | none => exact .inr (Typed.reported_report rfl loc)
    | some t =>
      rw [hresult] at h
      exact absurd h (UnaryOp.result_ne_error hoperand hresult)

theorem arithmetic_ne_error {left right t : Ty} (h : arithmetic left right = some t) : t ≠ .error := by
  unfold arithmetic at h
  split at h
  · rw [← Option.some.inj h]
    split <;> exact nofun
  · cases h

theorem BinaryOp.result_ne_error {op : BinaryOp} {left right t : Ty} (h : op.result table left right = some t) :
    t ≠ .error := by
  have bool : ∀ {test : Prop} [Decidable test], (if test then some Ty.bool else none) = some t → t ≠ .error := by
    intro test _ h
    split at h
    · cases h
      exact nofun
    · cases h
  unfold BinaryOp.result at h
  split at h
  · split at h
    · cases h
      exact nofun
    · exact arithmetic_ne_error h
  · exact arithmetic_ne_error h
  · exact arithmetic_ne_error h
  · exact arithmetic_ne_error h
  · exact arithmetic_ne_error h
  all_goals exact bool h

theorem binaryType_error {op : BinaryOp} {left right : Ty} (h : (binaryType table op left right loc).type = .error) :
    left = .error ∨ right = .error ∨ Reported (binaryType table op left right loc).diagnostics := by
  unfold binaryType at h ⊢
  split at h
  · rename_i hsides
    exact hsides.imp_right .inl
  · rename_i hsides
    rw [if_neg hsides]
    cases hresult : op.result table left right with
    | none => exact .inr (.inr (Typed.reported_report rfl loc))
    | some t =>
      rw [hresult] at h
      exact absurd h (BinaryOp.result_ne_error hresult)

theorem branchType_error {positive negative : Ty} (h : (branchType table positive negative loc).type = .error) :
    positive = .error ∨ negative = .error ∨ Reported (branchType table positive negative loc).diagnostics := by
  unfold branchType at h ⊢
  split at h
  · rename_i hsides
    exact hsides.imp_right .inl
  · rename_i hsides
    rw [if_neg hsides]
    split at h
    · exact absurd (.inr h) hsides
    · rename_i hto
      rw [if_neg hto]
      split at h
      · exact absurd (.inl h) hsides
      · rename_i hfrom
        rw [if_neg hfrom]
        exact .inr (.inr (Typed.reported_report rfl loc))

end Operators

section Dangling

variable {table : ExportTable} {context : Context}

theorem Expr.TakesDangling.of_parts {e part : Expr} (hparts : part.parts ⊆ e.parts)
    (h : part.TakesDangling table context) : e.TakesDangling table context := by
  obtain ⟨target, field, loc, hmember, hfield⟩ := h
  exact ⟨target, field, loc, hparts hmember, hfield⟩

/-- Why an expression has no type: it is reported, or a parameter has none, or a dangling field is taken. -/
theorem typeOf_error {e : Expr} (h : (typeOf table context e).type = .error) :
    Reported (typeOf table context e).diagnostics ∨ (∃ name, (name, .error) ∈ context) ∨
      e.TakesDangling table context := by
  induction e with
  | int | float | string | bool | null => cases h
  | name name loc =>
    simp only [typeOf] at h ⊢
    cases hname : context.lookup name with
    | none => exact .inl (Typed.reported_report rfl loc)
    | some t =>
      rw [hname] at h
      obtain rfl : t = .error := h
      exact .inr (.inl ⟨name, mem_of_lookup hname⟩)
  | member target field loc ih =>
    rcases memberType_error h with htarget | hreported | ⟨htarget, hfield⟩
    · exact (ih htarget).imp (fun h => reported_append.mpr (.inl h))
        (Or.imp_right (.of_parts (List.subset_cons_self _ _)))
    · exact .inl (reported_append.mpr (.inr hreported))
    · exact .inr (.inr ⟨target, field, loc, .head _, htarget, hfield⟩)
  | unary op operand loc ih =>
    rcases unaryType_error h with hoperand | hreported
    · exact (ih hoperand).imp (fun h => reported_append.mpr (.inl h))
        (Or.imp_right (.of_parts (List.subset_cons_self _ _)))
    · exact .inl (reported_append.mpr (.inr hreported))
  | binary op left right loc ihl ihr =>
    have hparts : left.parts ++ right.parts ⊆ (Expr.binary op left right loc).parts := List.subset_cons_self _ _
    rcases binaryType_error h with hleft | hright | hreported
    · exact (ihl hleft).imp (fun h => reported_append.mpr (.inl (reported_append.mpr (.inl h))))
        (Or.imp_right (.of_parts fun _ hm => hparts (List.mem_append_left _ hm)))
    · exact (ihr hright).imp (fun h => reported_append.mpr (.inl (reported_append.mpr (.inr h))))
        (Or.imp_right (.of_parts fun _ hm => hparts (List.mem_append_right _ hm)))
    · exact .inl (reported_append.mpr (.inr hreported))
  | conditional test positive negative loc iht ihp ihn =>
    have hparts : test.parts ++ positive.parts ++ negative.parts ⊆
        (Expr.conditional test positive negative loc).parts := List.subset_cons_self _ _
    rcases branchType_error h with hpositive | hnegative | hreported
    · refine (ihp hpositive).imp (fun h => .of_part (List.mem_cons_of_mem _ ?_) h)
        (Or.imp_right (.of_parts fun _ hm => hparts (List.mem_append_left _ (List.mem_append_right _ hm))))
      exact List.mem_append_left _ (List.mem_append_right _ positive.self_mem_parts)
    · refine (ihn hnegative).imp (fun h => .of_part (List.mem_cons_of_mem _ ?_) h)
        (Or.imp_right (.of_parts fun _ hm => hparts (List.mem_append_right _ hm)))
      exact List.mem_append_right _ negative.self_mem_parts
    · exact .inl (reported_append.mpr (.inr hreported))

end Dangling

/-! ### Items -/

section Items

variable (table : ExportTable) (item : Item)

/-- The parameters of an item with their types. -/
def Item.context : Context := (contextOf table item.params).1

/-- The type that an item declares. -/
def Item.declaredType : Ty := (typeOfExpr table item.returnType).type

/-- The type of an expression in an item. -/
def Item.typeIn (e : Expr) : Ty := (typeOf table (item.context table) e).type

/-- The types that the check of an item gives: to its parameters, to what it declares, and to its body and all the
expressions in it. -/
def Item.types : List Ty :=
  (item.context table).map (·.2) ++ item.declaredType table :: item.body.parts.map (item.typeIn table)

/-- In the body of an item a field without a type is taken. -/
def Item.TakesDangling : Prop := item.body.TakesDangling table (item.context table)

/-- All of an item has a type, and its body fits the type it declares: by value it converts to it, by reference it can
be assigned to and has that very type. -/
structure Item.WellTyped : Prop where
  typed : .error ∉ item.types table
  fits : if item.byRef then item.body.isAssignable = true ∧ item.typeIn table item.body = item.declaredType table
    else (item.typeIn table item.body).converts table (item.declaredType table) = true

variable {table item}

theorem bodyProblems_error {byRef : Bool} {body : Expr} {type declared : Ty} {d : Diagnostic}
    (hd : d ∈ bodyProblems table byRef body type declared) : d.isError = true := by
  unfold bodyProblems at hd
  split at hd
  · split at hd
    · rw [List.mem_singleton.mp hd]; rfl
    · split at hd
      · rw [List.mem_singleton.mp hd]; rfl
      · cases hd
  · split at hd
    · cases hd
    · rw [List.mem_singleton.mp hd]; rfl

/-- What is reported of an item is reported of its parameters, of the type it declares, of its body, or of how the
body fits the type. -/
theorem reported_checkItem : Reported (checkItem table item) ↔
    Reported (contextOf table item.params).2 ∨ Reported (typeOfExpr table item.returnType).diagnostics ∨
      Reported (typeOf table (item.context table) item.body).diagnostics ∨
      bodyProblems table item.byRef item.body (item.typeIn table item.body) (item.declaredType table) ≠ [] := by
  have hfits {ds : List Diagnostic} (hds : ∀ d ∈ ds, d.isError = true) : Reported ds ↔ ds ≠ [] :=
    ⟨fun ⟨_, hd, _⟩ => List.ne_nil_of_mem hd, fun h => (List.exists_mem_of_ne_nil ds h).imp fun d hd => ⟨hd, hds d hd⟩⟩
  rw [← hfits fun _ => bodyProblems_error]
  simp only [checkItem, reported_append, or_assoc]
  rfl

/-- If something in an item has no type, then an error is reported of the item, or its body takes a field without
a type. -/
theorem Item.error_mem_types (h : .error ∈ item.types table) :
    Reported (checkItem table item) ∨ item.TakesDangling table := by
  have hparams {name : String} (hname : (name, .error) ∈ item.context table) : Reported (checkItem table item) :=
    reported_checkItem.mpr (.inl (contextOf_reported hname))
  rcases List.mem_append.mp h with hparam | h
  · obtain ⟨⟨name, t⟩, hmem, rfl : t = .error⟩ := List.mem_map.mp hparam
    exact .inl (hparams hmem)
  rcases List.mem_cons.mp h with hdeclared | h
  · exact .inl (reported_checkItem.mpr (.inr (.inl (typeOfExpr_reported table _ hdeclared.symm))))
  obtain ⟨part, hpart, htype⟩ := List.mem_map.mp h
  rcases typeOf_error htype with hreported | ⟨name, hname⟩ | hdangling
  · exact .inl (reported_checkItem.mpr (.inr (.inr (.inl (hreported.of_part hpart)))))
  · exact .inl (hparams hname)
  · exact .inr (hdangling.of_parts (Expr.parts_subset hpart))

theorem fits_of_bodyProblems {byRef : Bool} {body : Expr} {type declared : Ty} (htype : type ≠ .error)
    (hdeclared : declared ≠ .error) (h : bodyProblems table byRef body type declared = []) :
    if byRef then body.isAssignable = true ∧ type = declared else type.converts table declared = true := by
  unfold bodyProblems at h
  split at h
  · rename_i hbyRef
    rw [if_pos hbyRef]
    split at h
    · cases h
    · rename_i hassignable
      split at h
      · cases h
      · rename_i hsame
        exact ⟨by simpa using hassignable, Decidable.byContradiction fun hne => hsame ⟨hne, htype, hdeclared⟩⟩
  · rename_i hbyRef
    rw [if_neg hbyRef]
    split at h
    · assumption
    · cases h

variable (table item)

/-- Of every item an error is reported, or its body takes a field without a type, or all of it has a type and its
body fits the type it declares. -/
theorem reported_or_wellTyped : Reported (checkItem table item) ∨ item.TakesDangling table ∨ item.WellTyped table := by
  by_cases htyped : Ty.error ∈ item.types table
  · exact (Item.error_mem_types htyped).imp_right .inl
  have hdeclared : item.declaredType table ≠ .error := fun h =>
    htyped (List.mem_append_right _ (List.mem_cons.mpr (.inl h.symm)))
  have hbody : item.typeIn table item.body ≠ .error := fun h =>
    htyped (List.mem_append_right _ (List.mem_cons_of_mem _ (List.mem_map.mpr ⟨_, item.body.self_mem_parts, h⟩)))
  by_cases hproblems : bodyProblems table item.byRef item.body (item.typeIn table item.body)
      (item.declaredType table) = []
  · exact .inr (.inr ⟨htyped, fits_of_bodyProblems hbody hdeclared hproblems⟩)
  · exact .inl (reported_checkItem.mpr (.inr (.inr (.inr hproblems))))

end Items

/-- The core module and one that exports a type with a field of a type that neither has. -/
def danglingTable : ExportTable :=
  exportTable [⟨coreModule 0, "Core", coreExports, .metadata⟩,
    ⟨⟨1, "M", .static, none, none⟩, "M", [{ name := "M.T", fields := [⟨"bad", "Nope"⟩] }], .metadata⟩] []

/-- Such a field turns the check off: nothing is reported of an item that gives it for a whole number. -/
theorem dangling_unreported : ∃ item ∈ (SourceTree.ofText "fn f(x: M.T) -> Core.Int => x.bad;").items,
    .error ∈ item.types danglingTable ∧ checkItem danglingTable item = [] ∧ ¬ item.WellTyped danglingTable := by
  have hunreported : ∃ item ∈ (SourceTree.ofText "fn f(x: M.T) -> Core.Int => x.bad;").items,
      .error ∈ item.types danglingTable ∧ checkItem danglingTable item = [] := by decide +kernel
  obtain ⟨item, hitem, hunknown, hnone⟩ := hunreported
  exact ⟨item, hitem, hunknown, hnone, fun h => h.typed hunknown⟩

end FlowCheck.Flow
