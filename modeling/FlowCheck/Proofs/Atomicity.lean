import FlowCheck.Proofs.ReferenceCache
import FlowCheck.Proofs.Session
import FlowCheck.Proofs.Validation

/-! Validations that fail. A validation stops at the first thing that cannot be done, in the order of its stages, and
    then leaves its scope as it was. What it has put into the cache by then is what would be given without it, so no
    later validation shows that there was one. -/

namespace FlowCheck

/-! ### Answers -/

namespace ReferenceCache

variable {provider : ReferenceProvider} {answer : Module → Option Reference} {cache next : ReferenceCache} {m : Module}
  {got : Option Reference}

theorem Asked.eq {asked : List Request} (h : Asked provider m got asked) : got = provider.reference? m := by
  cases h <;> simp only [ReferenceProvider.reference?, *] <;> rfl

theorem Serves.eq (h : Serves provider cache m got next) : got = (cache.find? m).or (provider.reference? m) := by
  cases h with
  | kept hfind => rw [hfind, Option.some_or]
  | passed hfind hasked | stored hfind hasked => rw [hfind, Option.none_or, hasked.eq]

/-- What is given for each module: what is kept for it, or else what the provider has. -/
def Answers (provider : ReferenceProvider) (answer : Module → Option Reference) (cache : ReferenceCache) : Prop :=
  ∀ m, (cache.find? m).or (provider.reference? m) = answer m

/-- What is given for the modules does not change when one of them is asked for. -/
theorem Answers.getOrCreate (h : cache.Answers provider answer) (m : Module) :
    (cache.getOrCreate provider m).1 = answer m ∧ (cache.getOrCreate provider m).2.Answers provider answer := by
  have hserves := serves_getOrCreate provider cache m
  have hgot : (cache.getOrCreate provider m).1 = answer m := hserves.eq.trans (h m)
  refine ⟨hgot, fun m' => ?_⟩
  rw [hserves.find?]
  split
  · rename_i hm
    rw [hm.1, hserves.eq, Option.or_assoc, Option.or_self, h m]
  · exact h m'

end ReferenceCache

/-! ### Two runs -/

section Alike

variable (provider : ReferenceProvider) (answer : Module → Option Reference)

/-- Two offers with the same references, from caches that give the same. -/
structure Offer.Alike (o o' : Offer) : Prop where
  references : o.references = o'.references
  offered : o.offered = o'.offered
  left : o.cache.Answers provider answer
  right : o'.cache.Answers provider answer

/-- Two assemblies with the same compilation, from caches that give the same. -/
structure Assembly.Alike {Tree : Type} (a b : Assembly Tree) : Prop where
  offered : a.offered = b.offered
  compilation : a.compilation = b.compilation
  left : a.cache.Answers provider answer
  right : b.cache.Answers provider answer

/-- Two sessions with the same required modules, and caches that give the same. -/
structure Session.Alike (a b : Session) : Prop where
  required : a.required = b.required
  left : a.cache.Answers provider answer
  right : b.cache.Answers provider answer

end Alike

section Runs

variable {provider : ReferenceProvider} {answer : Module → Option Reference}

namespace Offer

theorem Alike.next {o o' : Offer} (h : o.Alike provider answer o') (m : Module) :
    (o.next provider m).Alike provider answer (o'.next provider m) := by
  unfold Offer.next
  rw [h.offered]
  split
  · exact h
  · obtain ⟨hleft, hleft'⟩ := h.left.getOrCreate m
    obtain ⟨hright, hright'⟩ := h.right.getOrCreate m
    refine ⟨?_, rfl, hleft', hright'⟩
    dsimp only
    rw [h.references, hleft, hright]

variable {c c' : ReferenceCache} (hc : c.Answers provider answer) (hc' : c'.Answers provider answer)
include hc hc'

theorem alike_all (offered ms : List Module) :
    (all provider offered c ms).Alike provider answer (all provider offered c' ms) :=
  List.foldl_rel ⟨rfl, rfl, hc, hc'⟩ fun m _ _ _ h => h.next m

theorem portions_alike (offered : List Module) (more : List (List Module)) :
    portions provider offered c more = portions provider offered c' more := by
  induction more generalizing offered c c' with
  | nil => rfl
  | cons ms more ih =>
    have h := alike_all hc hc' offered ms
    simp only [portions]
    rw [h.references, h.offered, ih h.left h.right]

end Offer

namespace Assembly

variable {Tree : Type}

theorem alike_build {c c' : ReferenceCache} (hc : c.Answers provider answer) (hc' : c'.Answers provider answer)
    (modules : List Module) (namespaces : List String) : (build provider c modules namespaces : Assembly Tree).Alike
      provider answer (build provider c' modules namespaces) := by
  have h := Offer.alike_all hc hc' [] modules
  refine ⟨h.offered, ?_, h.left, h.right⟩
  simp only [build, h.references]

theorem Alike.extend {a b : Assembly Tree} (h : a.Alike provider answer b) (type : TypeDescriptor) :
    (a.extend provider type).Alike provider answer (b.extend provider type) := by
  have hall := Offer.alike_all h.left h.right a.offered type.drawnIn
  unfold Assembly.extend
  rw [← h.offered, ← h.compilation]
  refine ⟨hall.offered, ?_, hall.left, hall.right⟩
  simp only [← TypeDescriptor.drawnIn.eq_def, hall.references]

end Assembly

end Runs

namespace Validator

variable {Tree : Type} (v : Validator Tree)

section Runs

variable {v} {answer : Module → Option Reference}

theorem write_alike (k : Nat) (units : List ExpressionUnit) {a b : Assembly Tree} (h : a.Alike v.provider answer b)
    (w : SourceWriter) : (v.write k units a w).1 = (v.write k units b w).1 ∧
      (v.write k units a w).2.Alike v.provider answer (v.write k units b w).2 := by
  induction units generalizing k a b w with
  | nil => exact ⟨rfl, h⟩
  | cons unit units ih =>
    have hextend := h.extend unit.resultType
    rw [write, write]
    cases unit.fragment v.language k with
    | error fault => exact ⟨rfl, hextend⟩
    | ok text => exact ih (k + 1) hextend (w.line text)

/-- A validation gives the same in two sessions that are alike, and they stay alike. -/
theorem validate_alike {a b : Session} (h : a.Alike v.provider answer b) (scope : Option ValidationScope) :
    (v.validate a scope).result = (v.validate b scope).result ∧
      (v.validate a scope).session.Alike v.provider answer (v.validate b scope).session := by
  cases scope with
  | none => exact ⟨rfl, h⟩
  | some scope =>
    have hassemble : (v.assemble a scope).1 = (v.assemble b scope).1 ∧
        (v.assemble a scope).2.Alike v.provider answer (v.assemble b scope).2 := by
      rw [assemble, assemble, h.required]
      exact write_alike 0 scope.units (Assembly.alike_build h.left h.right _ _) .empty
    obtain ⟨hwritten, halike⟩ := hassemble
    refine ⟨?_, h.required, halike.left, halike.right⟩
    simp only [validate, validateScope, hwritten, v.compile_congr halike.compilation]

theorem operate_alike {a b : Session} (h : a.Alike v.provider answer b) (op : Operation) :
    (v.operate a op).Alike v.provider answer (v.operate b op) := by
  cases op with
  | validate scope => exact (validate_alike h scope).2
  | require m => exact ⟨congrArg (·.add m) h.required, h.left, h.right⟩
  | lookUp m => exact ⟨h.required, (h.left.getOrCreate m).2, (h.right.getOrCreate m).2⟩

theorem operations_alike {a b : Session} (h : a.Alike v.provider answer b) (ops : List Operation) :
    (ops.foldl v.operate a).Alike v.provider answer (ops.foldl v.operate b) :=
  List.foldl_rel h fun op _ _ _ h => operate_alike h op

theorem given_alike {a b : Session} (h : a.Alike v.provider answer b) (scope : ValidationScope) :
    v.given a scope = v.given b scope := by
  rw [given, given, h.required]
  exact Offer.portions_alike h.left h.right _ _

end Runs

/-- A session before and after a validation is alike. -/
theorem alike_validate (session : Session) (scope : Option ValidationScope) :
    ∃ answer, (v.validate session scope).session.Alike v.provider answer session := by
  have hself : session.cache.Answers v.provider _ := fun m => rfl
  have h := (validate_alike (v := v) ⟨rfl, hself, hself⟩ scope).2
  have hrequired : (v.validate session scope).session.required = session.required := by cases scope <;> rfl
  exact ⟨_, hrequired, h.left, hself⟩

/-! ### Stages -/

/-- The variables of an expression can be found out. -/
def Readable (unit : ExpressionUnit) : Prop := ∃ names, v.language.identifiers unit.text = .ok names

/-- These are the lines for some expressions, the first of which is at place `k`. -/
def LinesOf (k : Nat) (units : List ExpressionUnit) (lines : List String) : Prop :=
  List.Forall₂ (fun place line => place.1.fragment v.language place.2 = .ok line) (units.zipIdx k) lines

/-- What is assembled when all that the types of the results draw in is linked. -/
def linkAll (a : Assembly Tree) (units : List ExpressionUnit) : Assembly Tree :=
  units.foldl (fun a unit => a.extend v.provider unit.resultType) a

/-- The compilation of a scope without its batch. -/
def linkedFor (session : Session) (scope : ValidationScope) : Compilation Tree :=
  (v.linkAll (.build v.provider session.cache (v.modules session.required scope)
    (v.config.namespacesWith scope.namespaces)) scope.units).compilation

/-- The source of the batch of a scope, which has a line for each expression. -/
def BatchOf (scope : ValidationScope) (source : String) : Prop :=
  ∃ lines, v.LinesOf 0 scope.units lines ∧ source = (lines.foldl SourceWriter.line .empty).finish

/-- The first stage that fails, with its fault: reading the expressions one by one, then reading the batch, then
compiling it. -/
inductive Stops (session : Session) (scope : ValidationScope) : Fault → Prop where
  | reading {front unit back fault} : scope.units = front ++ unit :: back → (∀ u ∈ front, v.Readable u) →
    v.language.identifiers unit.text = .error fault → Stops session scope fault
  | parsing {source fault} : v.BatchOf scope source → v.language.parse source = .error fault →
    Stops session scope fault
  | diagnosing {source tree fault} : v.BatchOf scope source → v.language.parse source = .ok tree →
    v.language.diagnose ((v.linkedFor session scope).addTree tree) = .error fault → Stops session scope fault

section Stages

variable {v} {unit : ExpressionUnit} {fault : Fault}

theorem fragment_of_readable (h : v.Readable unit) (k : Nat) : ∃ line, unit.fragment v.language k = .ok line := by
  obtain ⟨names, hnames⟩ := h
  rw [ExpressionUnit.fragment, ExpressionUnit.parameters, hnames]
  exact ⟨_, rfl⟩

theorem fragment_of_unreadable (h : v.language.identifiers unit.text = .error fault) (k : Nat) :
    unit.fragment v.language k = .error fault := by
  rw [ExpressionUnit.fragment, ExpressionUnit.parameters, h]
  rfl

/-- Either there is a line for each expression, or there is a first one that cannot be read. -/
theorem lines_or_unreadable (v : Validator Tree) (k : Nat) (units : List ExpressionUnit) :
    (∃ lines, v.LinesOf k units lines) ∨ ∃ front unit back fault, units = front ++ unit :: back ∧
      (∀ u ∈ front, v.Readable u) ∧ v.language.identifiers unit.text = .error fault := by
  induction units generalizing k with
  | nil => exact .inl ⟨[], .nil⟩
  | cons unit units ih =>
    cases hnames : v.language.identifiers unit.text with
    | error fault => exact .inr ⟨[], unit, units, fault, rfl, nofun, hnames⟩
    | ok names =>
      have hreadable : v.Readable unit := ⟨names, hnames⟩
      obtain ⟨line, hline⟩ := fragment_of_readable hreadable k
      rcases ih (k + 1) with ⟨lines, hlines⟩ | ⟨front, u, back, fault, rfl, hfront, hu⟩
      · exact .inl ⟨line :: lines, .cons hline hlines⟩
      · exact .inr ⟨unit :: front, u, back, fault, rfl, List.forall_mem_cons.mpr ⟨hreadable, hfront⟩, hu⟩

theorem write_lines {k : Nat} {units : List ExpressionUnit} {lines : List String} (h : v.LinesOf k units lines)
    (a : Assembly Tree) (w : SourceWriter) :
    v.write k units a w = (.ok (lines.foldl SourceWriter.line w), v.linkAll a units) := by
  induction units generalizing k lines a w with
  | nil =>
    cases h
    rfl
  | cons unit units ih =>
    cases h with
    | cons hline hlines =>
      rw [write, hline]
      exact ih hlines _ _

theorem write_unreadable {front back : List ExpressionUnit} (hfront : ∀ u ∈ front, v.Readable u)
    (hunit : v.language.identifiers unit.text = .error fault) (k : Nat) (a : Assembly Tree) (w : SourceWriter) :
    (v.write k (front ++ unit :: back) a w).1 = .error fault := by
  induction front generalizing k a w with
  | nil => rw [List.nil_append, write, fragment_of_unreadable hunit]
  | cons u front ih =>
    obtain ⟨hu, hothers⟩ := List.forall_mem_cons.mp hfront
    obtain ⟨line, hline⟩ := fragment_of_readable hu k
    rw [List.cons_append, write, hline]
    exact ih hothers _ _ _

variable {session : Session} {scope : ValidationScope}

/-- When all expressions can be read, what comes of a validation is what comes of its batch. -/
theorem validate_batch {source : String} (h : v.BatchOf scope source) :
    (v.validate session (some scope)).result = (do
      let tree ← v.language.parse source
      let diagnostics ← v.language.diagnose ((v.linkedFor session scope).addTree tree)
      return Attribution.errors v.language.marker v.curator diagnostics source scope) := by
  obtain ⟨lines, hlines, rfl⟩ := h
  simp only [validate, validateScope, assemble, write_lines hlines, compile, Assembly.append, linkedFor, bind,
    Except.bind]
  cases v.language.parse (lines.foldl SourceWriter.line .empty).finish <;> rfl

theorem validate_unreadable {front back : List ExpressionUnit} (hunits : scope.units = front ++ unit :: back)
    (hfront : ∀ u ∈ front, v.Readable u) (hunit : v.language.identifiers unit.text = .error fault) :
    (v.validate session (some scope)).result = .error fault := by
  simp only [validate, validateScope, assemble, hunits, write_unreadable hfront hunit]
  rfl

theorem stops_iff : (v.validate session (some scope)).result = .error fault ↔ v.Stops session scope fault := by
  constructor
  · intro herror
    rcases lines_or_unreadable v 0 scope.units with ⟨lines, hlines⟩ | ⟨front, unit, back, fault', hunits, hfront, hunit⟩
    · have hbatch : v.BatchOf scope _ := ⟨lines, hlines, rfl⟩
      rw [validate_batch hbatch] at herror
      cases hparse : v.language.parse (lines.foldl SourceWriter.line .empty).finish with
      | error fault' =>
        rw [hparse] at herror
        exact Except.error.inj herror ▸ .parsing hbatch hparse
      | ok tree =>
        rw [hparse] at herror
        cases hdiagnose : v.language.diagnose ((v.linkedFor session scope).addTree tree) with
        | error fault' =>
          simp only [bind, Except.bind, hdiagnose] at herror
          exact Except.error.inj herror ▸ .diagnosing hbatch hparse hdiagnose
        | ok ds =>
          simp only [bind, Except.bind, hdiagnose] at herror
          cases herror
    · rw [validate_unreadable hunits hfront hunit] at herror
      exact Except.error.inj herror ▸ .reading hunits hfront hunit
  · intro hstops
    cases hstops with
    | reading hunits hfront hunit => exact validate_unreadable hunits hfront hunit
    | parsing hbatch hparse =>
      rw [validate_batch hbatch, hparse]
      rfl
    | diagnosing hbatch hparse hdiagnose =>
      rw [validate_batch hbatch, hparse]
      simp only [bind, Except.bind, hdiagnose]

end Stages

theorem scope_of_error {session : Session} {scope : ValidationScope} {fault : Fault}
    (h : (v.validate session (some scope)).result = .error fault) :
    (v.validate session (some scope)).scope = some scope := by
  dsimp only [validate, validateScope] at h ⊢
  rw [h]

theorem scope_of_ok {session : Session} {scope : ValidationScope} {errors : List ValidationError}
    (h : (v.validate session (some scope)).result = .ok errors) :
    (v.validate session (some scope)).scope = some .empty := by
  dsimp only [validate, validateScope] at h ⊢
  rw [h]

/-- A validation fails with the fault of the first stage that fails, and only so. It then leaves the scope and the
required modules as they are, and whatever is done afterwards, every validation is as it would be without the failed
one. A validation that does not fail empties the scope. Over Flow no stage fails. -/
theorem validate_atomic (session : Session) (scope : ValidationScope) :
    let outcome := v.validate session (some scope)
    (∀ fault, outcome.result = .error fault ↔ v.Stops session scope fault) ∧
      (∀ fault, outcome.result = .error fault →
        outcome.scope = some scope ∧ outcome.session.required = session.required ∧
          ∀ (ops : List Operation) (next : Option ValidationScope),
            let after := ops.foldl v.operate outcome.session
            let without := ops.foldl v.operate session
            (v.validate after next).result = (v.validate without next).result ∧
              (v.validate after next).scope = (v.validate without next).scope ∧
              (v.validate after next).session.required = (v.validate without next).session.required ∧
              ∀ s ∈ next, v.given after s = v.given without s) ∧
      (∀ errors, outcome.result = .ok errors → outcome.scope = some .empty) ∧
      ∀ provider config loader curator (session : Session) (scope : ValidationScope),
        let flow := plain provider config loader curator
        (∀ fault, ¬flow.Stops session scope fault) ∧
          ∃ errors, (flow.validate session (some scope)).result = .ok errors := by
  intro outcome
  refine ⟨fun _ => stops_iff, fun fault herror => ?_, fun errors => v.scope_of_ok, ?_⟩
  · refine ⟨v.scope_of_error herror, rfl, fun ops next => ?_⟩
    obtain ⟨answer, halike⟩ := v.alike_validate session (some scope)
    have hafter := operations_alike halike ops
    obtain ⟨hresult, hsession⟩ := validate_alike hafter next
    exact ⟨hresult, v.scope_congr hresult, hsession.required, fun s _ => given_alike hafter s⟩
  · intro provider config loader curator session scope flow
    have hok := validate_plain provider config loader curator session scope
    refine ⟨fun fault hstops => ?_, _, hok⟩
    cases hok.symm.trans (stops_iff.mpr hstops)

/-- A language that cannot read the second of two expressions: both are still in the scope. -/
theorem validate_atomic_second :
    let fault := Fault.parser "Failing" "no expression"
    let identifiers := fun text => if text = "missing" then .error fault else Flow.language.identifiers text
    let v : Validator Flow.SourceTree := { bare with language := { Flow.language with identifiers } }
    let unit : ExpressionUnit := { (default : ExpressionUnit) with text := "1 + 1" }
    let scope : ValidationScope := ⟨[unit, { unit with text := "missing" }], [], []⟩
    (v.validate .empty (some scope)).result = .error fault ∧ (v.validate .empty (some scope)).scope = some scope := by
  intro fault identifiers v unit scope
  have hunits : scope.units = [unit] ++ { unit with text := "missing" } :: [] := rfl
  have hread : v.Readable unit := ⟨_, rfl⟩
  have hstops : v.Stops .empty scope fault := .reading hunits (List.forall_mem_singleton.mpr hread) rfl
  obtain ⟨hresult, hkept, -⟩ := v.validate_atomic .empty scope
  have herror := (hresult fault).mpr hstops
  exact ⟨herror, (hkept fault herror).1⟩

end Validator

end FlowCheck
