import FlowCheck.Flow.Problem

/-! Problems of form and problems of types. The lexer and the parser find what is wrong with the form of a text,
    the checker what is wrong with its types. The two have no code in common. -/

namespace FlowCheck

namespace Flow

/-- The lexer or the parser finds this, not the checker. -/
def Problem.ofForm : Problem → Bool
  | .unclosedComment | .unknownEscape _ | .newlineInString | .integerTooLarge | .unexpectedCharacter _ => true
  | .expected _ | .expectedIdentifier | .invalidTerm _ | .tooComplex => true
  | _ => false

theorem Problem.severity_of_form {p : Problem} (h : p.ofForm = true) : p.severity = .error := by
  cases p with
  | constantTest => cases h
  | _ => rfl

/-- The codes of what the checker finds. -/
def checkerCodes : List String :=
  ["FX0019", "FX0023", "FX0029", "FX0103", "FX0131", "FX0173", "FX0246", "FX0305", "FX1061", "FX8001"]

/-- All of the diagnostics are problems of some kind. -/
def AllOf (S : Problem → Prop) (ds : List Diagnostic) : Prop :=
  ∀ d ∈ ds, ∃ (p : Problem) (loc : Location), S p ∧ d = p.located loc

end Flow

/-- The checker found this. -/
def Diagnostic.ofChecker (d : Diagnostic) : Bool := Flow.checkerCodes.contains d.code

namespace Flow

theorem Problem.ofChecker_located (p : Problem) (loc : Location) : (p.located loc).ofChecker = !p.ofForm := by
  cases p <;> rfl

section

variable {S : Problem → Prop} {ds es : List Diagnostic}

theorem allOf_nil : AllOf S [] := nofun

theorem allOf_append : AllOf S (ds ++ es) ↔ AllOf S ds ∧ AllOf S es := List.forall_mem_append

theorem allOf_located {p : Problem} (hp : S p) (loc : Location) : AllOf S [p.located loc] :=
  List.forall_mem_singleton.mpr ⟨p, loc, hp, rfl⟩

theorem AllOf.imp {T : Problem → Prop} (h : AllOf S ds) (hT : ∀ p, S p → T p) : AllOf T ds := fun d hd => by
  obtain ⟨p, loc, hp, rfl⟩ := h d hd
  exact ⟨p, loc, hT p hp, rfl⟩

theorem AllOf.error_of_form (h : AllOf (·.ofForm = true) ds) : ∀ d ∈ ds, d.isError = true := by
  intro d hd
  obtain ⟨p, loc, hp, rfl⟩ := h d hd
  exact beq_iff_eq.mpr (Problem.severity_of_form hp)

theorem AllOf.not_ofChecker (h : AllOf (·.ofForm = true) ds) : ds.filter Diagnostic.ofChecker = [] := by
  refine List.filter_eq_nil_iff.mpr fun d hd => ?_
  obtain ⟨p, loc, hp, rfl⟩ := h d hd
  rw [p.ofChecker_located, hp]
  exact Bool.false_ne_true

theorem AllOf.ofChecker (h : AllOf (·.ofForm = false) ds) : ds.filter Diagnostic.ofChecker = ds := by
  refine List.filter_eq_self.mpr fun d hd => ?_
  obtain ⟨p, loc, hp, rfl⟩ := h d hd
  rw [p.ofChecker_located, hp]
  rfl

end

end Flow

end FlowCheck
