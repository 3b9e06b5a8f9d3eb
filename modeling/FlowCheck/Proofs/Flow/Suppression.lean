import FlowCheck.Proofs.Flow.Reporting

/-! Errors that follow from others. What has no type because of an error takes part in no further one: an operator, a
    member or a conditional over it has no type either, and nothing is reported of it. The test of a conditional is the
    one place where this ends, since the type of a conditional does not depend on its test. So of two expressions one
    of which stands inside the other, both with errors, the inner one stands in such a test. -/

namespace FlowCheck.Flow

/-! ### Places in an expression -/

/-- What an expression is to the one that it stands directly inside of. -/
inductive Expr.Role where
  | target | operand | left | right | test | positive | negative
  deriving DecidableEq, Repr

namespace Expr

/-- The expression directly inside of another. -/
def child? : Expr → Role → Option Expr
  | .member target _ _, .target => some target
  | .unary _ operand _, .operand => some operand
  | .binary _ left _ _, .left => some left
  | .binary _ _ right _, .right => some right
  | .conditional test _ _ _, .test => some test
  | .conditional _ positive _ _, .positive => some positive
  | .conditional _ _ negative _, .negative => some negative
  | _, _ => none

/-- The expression that a way leads to. -/
def at? (e : Expr) : List Role → Option Expr
  | [] => some e
  | role :: way => (e.child? role).bind (·.at? way)

theorem at?_append (e : Expr) (way more : List Role) : e.at? (way ++ more) = (e.at? way).bind (·.at? more) := by
  induction way generalizing e with
  | nil => rfl
  | cons role way ih =>
    rw [List.cons_append, at?, at?, Option.bind_assoc]
    exact congrArg _ (funext ih)

theorem child_mem_parts {e child : Expr} {role : Role} (h : e.child? role = some child) : child ∈ e.parts := by
  cases e <;> cases role <;> cases h <;> simp [parts, self_mem_parts]

theorem mem_parts_of_at? {e part : Expr} {way : List Role} (h : e.at? way = some part) : part ∈ e.parts := by
  induction way generalizing e with
  | nil => exact Option.some.inj h ▸ e.self_mem_parts
  | cons role way ih =>
    obtain ⟨child, hchild, h⟩ := Option.bind_eq_some_iff.mp h
    exact parts_subset (child_mem_parts hchild) (ih h)

theorem conditional_of_test {e part : Expr} {way more : List Role} (h : e.at? (way ++ .test :: more) = some part) :
    ∃ test positive negative loc, e.at? way = some (.conditional test positive negative loc) := by
  rw [at?_append] at h
  obtain ⟨c, hc, h⟩ := Option.bind_eq_some_iff.mp h
  obtain ⟨child, hchild, -⟩ := Option.bind_eq_some_iff.mp h
  cases c with
  | conditional test positive negative loc => exact ⟨test, positive, negative, loc, hc⟩
  | _ => cases hchild

end Expr

/-! ### What is reported where -/

section Reports

variable (table : ExportTable) (context : Context)

/-- What the checker makes of an expression by the types of those directly inside of it. -/
def verdict : Expr → Typed
  | .member target field loc => memberType table (typeOf table context target).type field loc
  | .unary op operand loc => unaryType op (typeOf table context operand).type loc
  | .binary op left right loc =>
    binaryType table op (typeOf table context left).type (typeOf table context right).type loc
  | .conditional _ positive negative loc =>
    branchType table (typeOf table context positive).type (typeOf table context negative).type loc
  | e => typeOf table context e

/-- All that is reported of an expression, each time with the way to the expression that it is about. What is wrong with
a test as a test is about the test. -/
def reports : Expr → List (List Expr.Role × Diagnostic)
  | .member target field loc =>
    below .target (reports target) ++ here (verdict table context (.member target field loc)).diagnostics
  | .unary op operand loc =>
    below .operand (reports operand) ++ here (verdict table context (.unary op operand loc)).diagnostics
  | .binary op left right loc =>
    below .left (reports left) ++ below .right (reports right) ++
      here (verdict table context (.binary op left right loc)).diagnostics
  | .conditional test positive negative loc =>
    below .test (reports test ++ here (testProblems table test (typeOf table context test).type)) ++
      below .positive (reports positive) ++ below .negative (reports negative) ++
      here (verdict table context (.conditional test positive negative loc)).diagnostics
  | e => here (verdict table context e).diagnostics
where
  here (ds : List Diagnostic) : List (List Expr.Role × Diagnostic) := ds.map ([], ·)
  below (role : Expr.Role) (rs : List (List Expr.Role × Diagnostic)) : List (List Expr.Role × Diagnostic) :=
    rs.map fun r => (role :: r.1, r.2)

/-- An error is reported of the expression that a way leads to. -/
def Expr.ReportedAt (e : Expr) (way : List Expr.Role) : Prop :=
  ∃ d, (way, d) ∈ reports table context e ∧ d.isError = true

end Reports

variable {table : ExportTable} {context : Context}

theorem reports_diagnostics (e : Expr) :
    (reports table context e).map (·.2) = (typeOf table context e).diagnostics := by
  have hhere (ds : List Diagnostic) : (reports.here ds).map (·.2) = ds := by
    simp [reports.here, Function.comp_def]
  have hbelow (role : Expr.Role) (rs : List (List Expr.Role × Diagnostic)) :
      (reports.below role rs).map (·.2) = rs.map (·.2) := by simp [reports.below]
  induction e with
  | member _ _ _ ih | unary _ _ _ ih =>
    simp only [reports, List.map_append, hhere, hbelow, ih, typeOf, verdict, Typed.after]
  | binary _ _ _ _ ihl ihr => simp only [reports, List.map_append, hhere, hbelow, ihl, ihr, typeOf, verdict, Typed.after]
  | conditional _ _ _ _ iht ihp ihn =>
    simp only [reports, List.map_append, hhere, hbelow, iht, ihp, ihn, typeOf, verdict, Typed.after]
  | _ => exact hhere _

theorem mem_reports_nil {e : Expr} {d : Diagnostic} :
    ([], d) ∈ reports table context e ↔ d ∈ (verdict table context e).diagnostics := by
  cases e <;> simp [reports, reports.here, reports.below]

theorem mem_reports_cons {e : Expr} {role : Expr.Role} {way : List Expr.Role} {d : Diagnostic} :
    (role :: way, d) ∈ reports table context e ↔ ∃ child, e.child? role = some child ∧
      ((way, d) ∈ reports table context child ∨
        role = .test ∧ d ∈ testProblems table child (typeOf table context child).type ∧ way = []) := by
  cases e <;> cases role <;> simp [reports, reports.here, reports.below, Expr.child?]

/-! ### What a verdict does -/

theorem typeOf_type (e : Expr) : (typeOf table context e).type = (verdict table context e).type := by
  cases e <;> rfl

variable (table context) in
/-- An expression has a type without a report about it, or a report instead of a type. -/
theorem verdict_cases (e : Expr) : (∃ t, verdict table context e = .clean t) ∨
    ∃ p, verdict table context e = .report p e.loc := by
  cases e with
  | int | float | string | bool | null => exact .inl ⟨_, rfl⟩
  | name name loc =>
    simp only [verdict, typeOf]
    split
    · exact .inl ⟨_, rfl⟩
    · exact .inr ⟨_, rfl⟩
  | member target field loc =>
    simp only [verdict, memberType]
    split
    · exact .inl ⟨_, rfl⟩
    · exact .inr ⟨_, rfl⟩
    · split
      · exact .inl ⟨_, rfl⟩
      · exact .inr ⟨_, rfl⟩
  | unary op operand loc =>
    simp only [verdict, unaryType]
    split
    · exact .inl ⟨_, rfl⟩
    · split
      · exact .inl ⟨_, rfl⟩
      · exact .inr ⟨_, rfl⟩
  | binary op left right loc =>
    simp only [verdict, binaryType]
    split
    · exact .inl ⟨_, rfl⟩
    · split
      · exact .inl ⟨_, rfl⟩
      · exact .inr ⟨_, rfl⟩
  | conditional test positive negative loc =>
    simp only [verdict, branchType]
    split
    · exact .inl ⟨_, rfl⟩
    · split
      · exact .inl ⟨_, rfl⟩
      · split
        · exact .inl ⟨_, rfl⟩
        · exact .inr ⟨_, rfl⟩

theorem report_of_mem_verdict {e : Expr} {d : Diagnostic} (h : d ∈ (verdict table context e).diagnostics) :
    (typeOf table context e).type = .error ∧ d.location = some e.loc := by
  rcases verdict_cases table context e with ⟨t, hclean⟩ | ⟨p, hreport⟩
  · rw [hclean] at h
    cases h
  · rw [hreport] at h
    rw [typeOf_type, hreport, List.mem_singleton.mp h]
    exact ⟨rfl, rfl⟩

/-- What stands over an expression without a type has none either, and nothing is reported of it. -/
theorem verdict_of_child {e child : Expr} {role : Expr.Role} (hchild : e.child? role = some child)
    (hrole : role ≠ .test) (herror : (typeOf table context child).type = .error) :
    verdict table context e = .clean .error := by
  cases e with
  | member =>
    cases role <;> cases hchild
    rw [verdict, herror, memberType]
  | unary =>
    cases role <;> cases hchild
    rw [verdict, herror, unaryType, if_pos rfl]
  | binary =>
    cases role <;> cases hchild
    · rw [verdict, binaryType, if_pos (.inl herror)]
    · rw [verdict, binaryType, if_pos (.inr herror)]
  | conditional =>
    cases role <;> cases hchild
    · exact absurd rfl hrole
    · rw [verdict, branchType, if_pos (.inl herror)]
    · rw [verdict, branchType, if_pos (.inr herror)]
  | _ => cases hchild

theorem testProblems_error {e : Expr} {type : Ty} {d : Diagnostic} (h : d ∈ testProblems table e type) :
    d.location = some e.loc ∧ (d.isError = true → type ≠ .error) := by
  unfold testProblems at h
  split at h
  · split at h
    · rw [List.mem_singleton.mp h]
      exact ⟨rfl, nofun⟩
    · cases h
  · rename_i hconverts
    rw [List.mem_singleton.mp h]
    exact ⟨rfl, fun _ htype => hconverts (htype ▸ rfl)⟩

/-! ### Reports over reports -/

theorem at?_of_reports {e : Expr} {way : List Expr.Role} {d : Diagnostic} (h : (way, d) ∈ reports table context e) :
    ∃ part, e.at? way = some part ∧ d.location = some part.loc := by
  induction way generalizing e with
  | nil => exact ⟨e, rfl, (report_of_mem_verdict (mem_reports_nil.mp h)).2⟩
  | cons role way ih =>
    obtain ⟨child, hchild, h | ⟨-, hproblem, rfl⟩⟩ := mem_reports_cons.mp h
    · obtain ⟨part, hpart, hloc⟩ := ih h
      exact ⟨part, by rw [Expr.at?, hchild]; exact hpart, hloc⟩
    · exact ⟨child, by rw [Expr.at?, hchild]; rfl, (testProblems_error hproblem).1⟩

/-- An expression has no type if something in it is reported that stands in no test. -/
theorem type_of_reports {e : Expr} {way : List Expr.Role} {d : Diagnostic} (h : (way, d) ∈ reports table context e)
    (hway : .test ∉ way) : (typeOf table context e).type = .error := by
  induction way generalizing e with
  | nil => exact (report_of_mem_verdict (mem_reports_nil.mp h)).1
  | cons role way ih =>
    obtain ⟨hrole, hway⟩ := not_or.mp (mt List.mem_cons.mpr hway)
    obtain ⟨child, hchild, h | ⟨htest, -⟩⟩ := mem_reports_cons.mp h
    · rw [typeOf_type, verdict_of_child hchild (Ne.symm hrole) (ih h hway)]
      rfl
    · exact absurd htest.symm hrole

/-- Below an expression that an error is reported of, others are reported in tests only. -/
theorem test_of_nested {e : Expr} {outer inner : List Expr.Role} {d d' : Diagnostic}
    (houter : (outer, d) ∈ reports table context e) (hd : d.isError = true)
    (hinner : (outer ++ inner, d') ∈ reports table context e) (hne : inner ≠ []) : .test ∈ inner := by
  refine Decidable.byContradiction fun htest => ?_
  obtain ⟨role, way, rfl⟩ := List.exists_cons_of_ne_nil hne
  obtain ⟨hrole, hway⟩ := not_or.mp (mt List.mem_cons.mpr htest)
  induction outer generalizing e with
  | nil =>
    -- The expression itself is reported, so what stands directly inside of it, other than a test, has a type.
    obtain ⟨child, hchild, hinner | ⟨htest, -⟩⟩ := mem_reports_cons.mp hinner
    · have hclean := verdict_of_child hchild (Ne.symm hrole) (type_of_reports hinner hway)
      have hown := mem_reports_nil.mp houter
      rw [hclean] at hown
      cases hown
    · exact hrole htest.symm
  | cons first outer ih =>
    obtain ⟨child, hchild, hinner | ⟨-, -, hnil⟩⟩ := mem_reports_cons.mp hinner
    · obtain ⟨child', hchild', houter | ⟨-, hproblem, rfl⟩⟩ := mem_reports_cons.mp houter
      · obtain rfl := Option.some.inj (hchild.symm.trans hchild')
        exact ih houter hinner
      · -- The expression is reported as a test, so it has a type.
        obtain rfl := Option.some.inj (hchild.symm.trans hchild')
        exact (testProblems_error hproblem).2 hd (type_of_reports hinner htest)
    · exact List.append_ne_nil_of_right_ne_nil _ hne hnil

/-- Errors that follow from others are suppressed. If one of two different expressions with errors stands inside the
other, then it stands in, or is, the test of a conditional in the other. So without conditionals no expression with an
error stands inside another, and there is no type if there is an error. -/
theorem follow_on_suppressed (table : ExportTable) (context : Context) (e : Expr) :
    (reports table context e).map (·.2) = (typeOf table context e).diagnostics ∧
      (∀ r ∈ reports table context e, ∃ part, e.at? r.1 = some part ∧ r.2.location = some part.loc) ∧
      (∀ outer inner, e.ReportedAt table context outer → e.ReportedAt table context inner → outer <+: inner →
        outer ≠ inner → ∃ before after test positive negative loc, inner = outer ++ before ++ .test :: after ∧
          e.at? (outer ++ before) = some (.conditional test positive negative loc)) ∧
      ((∀ test positive negative loc, Expr.conditional test positive negative loc ∉ e.parts) →
        (∀ outer inner, e.ReportedAt table context outer → e.ReportedAt table context inner → outer <+: inner →
          outer = inner) ∧
        (Reported (typeOf table context e).diagnostics → (typeOf table context e).type = .error)) := by
  have hnested : ∀ outer inner, e.ReportedAt table context outer → e.ReportedAt table context inner →
      outer <+: inner → outer ≠ inner → ∃ before after test positive negative loc,
        inner = outer ++ before ++ .test :: after ∧
          e.at? (outer ++ before) = some (.conditional test positive negative loc) := by
    rintro outer _ ⟨d, houter, hd⟩ ⟨d', hinner, -⟩ ⟨rest, rfl⟩ hne
    have htest := test_of_nested houter hd hinner (by rintro rfl; exact hne (List.append_nil _).symm)
    obtain ⟨before, after, rfl⟩ := List.append_of_mem htest
    rw [← List.append_assoc] at hinner ⊢
    obtain ⟨part, hpart, -⟩ := at?_of_reports hinner
    obtain ⟨test, positive, negative, loc, hconditional⟩ := Expr.conditional_of_test hpart
    exact ⟨before, after, test, positive, negative, loc, rfl, hconditional⟩
  refine ⟨reports_diagnostics e, fun r hr => at?_of_reports hr, hnested, fun hnone => ⟨?_, ?_⟩⟩
  · intro outer inner houter hinner hprefix
    refine Decidable.byContradiction fun hne => ?_
    obtain ⟨before, _, _, _, _, _, -, hconditional⟩ := hnested outer inner houter hinner hprefix hne
    exact hnone _ _ _ _ (Expr.mem_parts_of_at? hconditional)
  · rintro ⟨d, hd, -⟩
    rw [← reports_diagnostics] at hd
    obtain ⟨⟨way, _⟩, hway, rfl⟩ := List.mem_map.mp hd
    refine type_of_reports hway fun htest => ?_
    obtain ⟨before, after, rfl⟩ := List.append_of_mem htest
    obtain ⟨part, hpart, -⟩ := at?_of_reports hway
    obtain ⟨_, _, _, _, hconditional⟩ := Expr.conditional_of_test hpart
    exact hnone _ _ _ _ (Expr.mem_parts_of_at? hconditional)

/-- The test of a conditional is an unknown name, and the conditional is an operand that does not fit the other. -/
theorem follow_on_suppressed_test :
    let e : Expr := .binary .sub (.conditional (.name "gone" ⟨0, 0⟩) (.int 1 ⟨0, 7⟩) (.int 2 ⟨0, 11⟩) ⟨0, 5⟩)
      (.bool true ⟨0, 16⟩) ⟨0, 14⟩
    e.ReportedAt .empty [] [] ∧ e.ReportedAt .empty [] [.left, .test] ∧
      ∃ before after, [.left, .test] = before ++ Expr.Role.test :: after := by
  intro e
  have houter : e.ReportedAt .empty [] [] := by
    refine ⟨(Problem.badOperands "-" "Core.Int" "Core.Bool").located ⟨0, 14⟩, ?_, rfl⟩
    decide +kernel +zetaReduce
  have hinner : e.ReportedAt .empty [] [.left, .test] := by
    refine ⟨(Problem.unknownName "gone").located ⟨0, 0⟩, ?_, rfl⟩
    decide +kernel +zetaReduce
  obtain ⟨before, after, _, _, _, _, hway, -⟩ := (follow_on_suppressed .empty [] e).2.2.1 [] _ houter hinner
    (List.nil_prefix) nofun
  exact ⟨houter, hinner, before, after, hway⟩

end FlowCheck.Flow
