import FlowCheck.Proofs.Workflow.Codec
import FlowCheck.Proofs.Workflow.Preorder
import FlowCheck.Proofs.Workflow.Validity

/-! Variables of documents are lexically scoped. The environment of an activity is made from the one of the activity
    around it, which is there because containment is read in preorder; so a name means the last variable of that name in
    the nearest activity, on the way out, that has one. -/

namespace FlowCheck

theorem Environment.resolve_declare (env : Environment) (declared name : String) (type : TypeDescriptor) :
    (env.declare declared type).resolve name = if declared = name then some type else env.resolve name := by
  unfold resolve declare
  rw [List.lookup_cons]
  by_cases h : declared = name
  · rw [if_pos h, h, beq_self_eq_true]
  · rw [if_neg h, beq_eq_false_iff_ne.mpr (Ne.symm h)]

namespace Workflow

/-! ### Scopes -/

/-- The variable that a name means among those of one activity: the last of that name. -/
def ActivitySpec.declared? (a : ActivitySpec) (name : String) : Option VariableSpec :=
  a.locals.reverse.find? (·.name == name)

section Scopes

variable {table : ExportTable} {c : Containment} {activities : List ActivitySpec} {i p : Nat} {a : ActivitySpec}
  {name : String} {v : VariableSpec}

/-- On the way out from an activity, which begins with the activity itself, the first that has a variable of some name
has this one as the last of that name. -/
def Nearest (c : Containment) (activities : List ActivitySpec) (i : Nat) (name : String) (v : VariableSpec) : Prop :=
  ∃ k j a, c.climb k i = some j ∧ activities[j]? = some a ∧ a.declared? name = some v ∧
    ∀ l < k, ∀ j' a', c.climb l i = some j' → activities[j']? = some a' → a'.declared? name = none

theorem nearest_own (ha : activities[i]? = some a) (hv : a.declared? name = some v) : Nearest c activities i name v :=
  ⟨0, i, a, rfl, ha, hv, nofun⟩

theorem Nearest.eq_own {v' : VariableSpec} (h : Nearest c activities i name v') (ha : activities[i]? = some a)
    (hv : a.declared? name = some v) : v' = v := by
  obtain ⟨k, j, b, hk, hb, hv', hbefore⟩ := h
  cases k with
  | zero =>
    obtain rfl := Option.some.inj hk
    obtain rfl := Option.some.inj (ha.symm.trans hb)
    exact Option.some.inj (hv'.symm.trans hv)
  | succ k => exact absurd (hv.symm.trans (hbefore 0 k.succ_pos i a rfl ha)) nofun

theorem nearest_outer (ha : activities[i]? = some a) (hnone : a.declared? name = none) :
    Nearest c activities i name v ↔ ∃ p, c.parent? i = some p ∧ Nearest c activities p name v := by
  constructor
  · rintro ⟨k, j, b, hk, hb, hv, hbefore⟩
    cases k with
    | zero =>
      obtain rfl := Option.some.inj hk
      obtain rfl := Option.some.inj (ha.symm.trans hb)
      exact absurd (hnone.symm.trans hv) nofun
    | succ k =>
      obtain ⟨p, hp, hk⟩ := Containment.climb_first.mp hk
      refine ⟨p, hp, k, j, b, hk, hb, hv, fun l hl j' a' hj' => ?_⟩
      exact hbefore (l + 1) (Nat.succ_lt_succ hl) j' a' (Containment.climb_first.mpr ⟨p, hp, hj'⟩)
  · rintro ⟨p, hp, k, j, b, hk, hb, hv, hbefore⟩
    refine ⟨k + 1, j, b, Containment.climb_first.mpr ⟨p, hp, hk⟩, hb, hv, fun l hl j' a' hj' ha' => ?_⟩
    cases l with
    | zero =>
      obtain rfl := Option.some.inj hj'
      obtain rfl := Option.some.inj (ha.symm.trans ha')
      exact hnone
    | succ l =>
      obtain ⟨p', hp', hj'⟩ := Containment.climb_first.mp hj'
      obtain rfl := Option.some.inj (hp.symm.trans hp')
      exact hbefore l (Nat.lt_of_succ_lt_succ hl) j' a' hj' ha'

/-- The environment is the one of an activity: every name means its nearest variable, and nothing else is visible. -/
structure Scoped (table : ExportTable) (c : Containment) (activities : List ActivitySpec) (i : Nat)
    (env : Environment) : Prop where
  declared : ∀ name v, Nearest c activities i name v →
    ∃ type, resolve table v.typeName = .ok type ∧ env.resolve name = some type
  only : ∀ name type, env.resolve name = some type →
    ∃ v, Nearest c activities i name v ∧ resolve table v.typeName = .ok type

/-- Of several variables of one name the last is declared; other names mean what they meant around the activity. -/
theorem declareAll_resolve {vs : List VariableSpec} (hmeans : ∀ v ∈ vs, Means table v.typeName)
    (found : Environment × List Defect) (name : String) :
    let env := (vs.foldl (UnitsRead.declare table a) found).1
    (∀ v, vs.reverse.find? (·.name == name) = some v →
      ∃ type, resolve table v.typeName = .ok type ∧ env.resolve name = some type) ∧
    (vs.reverse.find? (·.name == name) = none → env.resolve name = found.1.resolve name) := by
  induction vs using List.reverseRecOn with
  | nil => exact ⟨nofun, fun _ => rfl⟩
  | append_singleton vs v ih =>
    obtain ⟨hfront, hlast⟩ := List.forall_mem_append.mp hmeans
    obtain ⟨type, htype⟩ := hlast v (.head _)
    rw [List.foldl_append, List.foldl_cons, List.foldl_nil, UnitsRead.declare, htype, List.reverse_append,
      List.reverse_singleton, List.singleton_append, List.find?_cons]
    dsimp only
    rw [Environment.resolve_declare]
    by_cases hname : v.name = name
    · rw [if_pos hname, beq_iff_eq.mpr hname]
      exact ⟨fun v' hv' => ⟨type, Option.some.inj hv' ▸ htype, rfl⟩, nofun⟩
    · rw [if_neg hname, beq_eq_false_iff_ne.mpr hname]
      exact ih hfront

/-- The environment of an activity is that of the activity around it, with its own variables declared. -/
theorem scoped_declareAll (ha : activities[i]? = some a) (hmeans : ∀ v ∈ a.locals, Means table v.typeName)
    {around : Environment} (hroot : c.parent? i = none → around = .empty)
    (hparent : ∀ p, c.parent? i = some p → Scoped table c activities p around) (ds : List Defect) :
    Scoped table c activities i (a.locals.foldl (UnitsRead.declare table a) (around, ds)).1 := by
  have hresolve := declareAll_resolve (a := a) hmeans (around, ds)
  constructor
  · intro name v hv
    cases hown : a.declared? name with
    | some v' => exact hv.eq_own ha hown ▸ (hresolve name).1 v' hown
    | none =>
      obtain ⟨p, hp, hv⟩ := (nearest_outer ha hown).mp hv
      rw [(hresolve name).2 hown]
      exact (hparent p hp).declared name v hv
  · intro name type htype
    cases hown : a.declared? name with
    | some v =>
      obtain ⟨type', hv, htype'⟩ := (hresolve name).1 v hown
      obtain rfl := Option.some.inj (htype.symm.trans htype')
      exact ⟨v, nearest_own ha hown, hv⟩
    | none =>
      rw [(hresolve name).2 hown] at htype
      cases hp : c.parent? i with
      | none => rw [hroot hp] at htype; cases htype
      | some p =>
        obtain ⟨v, hv, hmeant⟩ := (hparent p hp).only name type htype
        exact ⟨v, (nearest_outer ha hown).mpr ⟨p, hp, hv⟩, hmeant⟩

end Scopes

/-! ### Reading the activities -/

/-- The unit is an expression of some activity, as it stands there, and has the environment of that activity. -/
def Placed (table : ExportTable) (c : Containment) (activities : List ActivitySpec) (unit : ExpressionUnit) : Prop :=
  ∃ i a e, activities[i]? = some a ∧ e ∈ a.expressions ∧ UnitOf table (a, e) unit ∧
    Scoped table c activities i unit.environment

namespace UnitsRead

variable {table : ExportTable} {c : Containment} {activities : List ActivitySpec} {r : UnitsRead} {i : Nat}
  {a : ActivitySpec} {env : Environment}

/-- The activities that were read have their environments, and the expressions those of their activities. -/
structure InScope (table : ExportTable) (c : Containment) (activities : List ActivitySpec) (done : List Nat)
    (r : UnitsRead) : Prop where
  environments : ∀ j ∈ done, ∃ env, r.environments.lookup j = some env ∧ Scoped table c activities j env
  units : ∀ unit ∈ r.units, Placed table c activities unit

theorem InScope.addExpression {done : List Nat} (h : InScope table c activities done r) (ha : activities[i]? = some a)
    (hscoped : Scoped table c activities i env) {e : ExpressionSpec} (he : e ∈ a.expressions) :
    InScope table c activities done (r.addExpression table a env e) := by
  unfold UnitsRead.addExpression
  split
  · exact ⟨h.environments, h.units⟩
  · dsimp only
    split
    · rename_i type htype
      refine ⟨h.environments, List.forall_mem_append.mpr ⟨h.units, List.forall_mem_singleton.mpr ?_⟩⟩
      exact ⟨i, a, e, ha, he, ⟨rfl, rfl, rfl, rfl, htype⟩, hscoped⟩
    · exact ⟨h.environments, h.units⟩

theorem InScope.addExpressions {done : List Nat} (h : InScope table c activities done r) (ha : activities[i]? = some a)
    (hscoped : Scoped table c activities i env) {es : List ExpressionSpec} (hes : ∀ e ∈ es, e ∈ a.expressions) :
    InScope table c activities done (es.foldl (UnitsRead.addExpression table a env) r) := by
  induction es generalizing r with
  | nil => exact h
  | cons e es ih =>
    obtain ⟨he, hes⟩ := List.forall_mem_cons.mp hes
    exact ih (h.addExpression ha hscoped he) hes

/-- An activity is read after the one around it. -/
theorem InScope.addActivity {done : List Nat} (h : InScope table c activities done r) (ha : activities[i]? = some a)
    (hmeans : ∀ v ∈ a.locals, Means table v.typeName) (hnew : i ∉ done)
    (hparent : ∀ p, c.parent? i = some p → p ∈ done) :
    InScope table c activities (done ++ [i]) (r.addActivity table c activities i) := by
  have haround : Scoped table c activities i (a.locals.foldl (UnitsRead.declare table a)
      (((c.parent? i).bind (r.environments.lookup ·)).getD .empty, r.defects)).1 := by
    refine scoped_declareAll ha hmeans (fun hroot => by rw [hroot]; rfl) (fun p hp => ?_) _
    obtain ⟨env, henv, hscoped⟩ := h.environments p (hparent p hp)
    rwa [hp, Option.bind_some, henv]
  rw [UnitsRead.addActivity, ha]
  dsimp only
  refine InScope.addExpressions ?_ ha haround fun e he => he
  refine ⟨fun j hj => ?_, h.units⟩
  rw [List.lookup_cons]
  rcases List.mem_append.mp hj with hj | hj
  · have hne : (j == i) = false := beq_eq_false_iff_ne.mpr fun e => hnew (e ▸ hj)
    rw [hne]
    exact h.environments j hj
  · obtain rfl := List.mem_singleton.mp hj
    exact ⟨_, by rw [beq_self_eq_true], haround⟩

theorem InScope.addAll {order done rest : List Nat} (hmeans : ∀ a ∈ activities, ∀ v ∈ a.locals, Means table v.typeName)
    (hsize : c.size = activities.length) (hclosed : c.Closed) (horder : c.InPreorder order)
    (hsplit : order = done ++ rest) (h : InScope table c activities done r) :
    InScope table c activities order (rest.foldl (UnitsRead.addActivity table c activities) r) := by
  induction rest generalizing done r with
  | nil => rwa [hsplit, List.append_nil]
  | cons i rest ih =>
    have hi : i < activities.length := by
      rw [← hsize, ← List.mem_range, ← horder.once.mem_iff, hsplit]
      exact List.mem_append_right _ (.head _)
    have hnodup : (done ++ i :: rest).Nodup := hsplit ▸ horder.once.nodup_iff.mpr List.nodup_range
    have hnew : i ∉ done := fun hmem => (List.nodup_append.mp hnodup).2.2 i hmem i (.head _) rfl
    refine ih (by rw [hsplit, List.append_assoc, List.singleton_append]) (h.addActivity (List.getElem?_eq_getElem hi)
      (hmeans _ (List.getElem_mem hi)) hnew fun p hp => horder.parent_before hclosed hsplit hp)

end UnitsRead

/-! ### Documents -/

variable {files : Files} {core : Module} {text : String} {w : Loaded}

theorem bind_ok {α β : Type} {x : Except (List Defect) α} {f : α → Except (List Defect) β} {b : β} :
    (x >>= f) = .ok b ↔ ∃ a, x = .ok a ∧ f a = .ok b := by
  cases x <;> simp [bind, Except.bind]

theorem unlessDefects_ok {α : Type} {ds : List Defect} {a b : α} : unlessDefects ds a = .ok b ↔ ds = [] ∧ a = b := by
  unfold unlessDefects
  split <;> simp_all

/-- What a document that is loaded is made of. -/
theorem load_ok (h : load files core text = .ok w) :
    let table := (ModulesRead.ofDocument files core w.document).table
    ∃ c, Containment.ofDocument w.document = .ok c ∧ w.units = (UnitsRead.ofDocument table c w.document).units := by
  obtain ⟨d, -, h⟩ := bind_ok.mp h
  obtain ⟨-, -, h⟩ := bind_ok.mp h
  obtain ⟨c, hc, h⟩ := bind_ok.mp h
  obtain ⟨-, rfl⟩ := unlessDefects_ok.mp h
  exact ⟨c, hc, rfl⟩

/-- Variables are lexically scoped in every document that is loaded: in an expression a name has the type of the last
variable of that name in the nearest activity that has one, among the activity of the expression and those around it,
one by one; and no other variable is visible. -/
theorem load_scoped (h : load files core text = .ok w) :
    let registry := (ModulesRead.ofDocument files core w.document).table
    ∃ c, Containment.ofDocument w.document = .ok c ∧ ∀ unit ∈ w.units,
      ∃ i a e, w.document.activities[i]? = some a ∧ e ∈ a.expressions ∧ UnitOf registry (a, e) unit ∧
        Scoped registry c w.document.activities i unit.environment := by
  intro registry
  obtain ⟨c, hc, hunits⟩ := load_ok h
  obtain ⟨-, hof⟩ := Containment.of_ofDocument hc
  have hmeans : ∀ a ∈ w.document.activities, ∀ v ∈ a.locals, Means registry v.typeName := by
    rcases load_cases files core text with ⟨w', _, hw', -, hvalid, -⟩ | ⟨ds, hds, -⟩
    · obtain rfl := Except.ok.inj (h.symm.trans hw')
      obtain ⟨hmodules, htable⟩ := modules_ofDocument files core w.document
      rw [show registry = _ from htable (hmodules.mpr hvalid.modules)]
      exact hvalid.locals
    · rw [hds] at h
      cases h
  have hstart : UnitsRead.InScope registry c w.document.activities [] ⟨[], [], [], []⟩ := ⟨nofun, nofun⟩
  have hread := hstart.addAll hmeans hof.size hof.closed (hof.acyclic.inPreorder hof.closed) (List.nil_append _).symm
  exact ⟨c, hc, hunits ▸ hread.units⟩

/-- An activity stands before the one around it, and hides a variable of it; it has two variables of that name. Its
sibling, which stands last, has another variable. -/
theorem load_scoped_hidden :
    let d : Document := ⟨"w", none, [], ⟨[], []⟩,
      [⟨"inner", none, [⟨"x", "Core.Bool"⟩, ⟨"x", "Core.String"⟩], [⟨"e", "x", "Core.String", .value⟩]⟩,
        ⟨"outer", none, [⟨"x", "Core.Int"⟩, ⟨"y", "Core.Float"⟩], []⟩, ⟨"sibling", none, [⟨"z", "Core.Int"⟩], []⟩],
      [⟨"outer", "sibling"⟩, ⟨"outer", "inner"⟩]⟩
    ∃ w, load (fun _ => none) (Flow.coreModule 0) d.render = .ok w ∧
      w.units.map (fun unit => ["x", "y", "z"].map fun name => (unit.environment.resolve name).map (·.display)) =
        [[some "Core.String", some "Core.Float", none]] ∧
      ∃ c, ∀ unit ∈ w.units, ∃ i, Scoped (ModulesRead.ofDocument (fun _ => none) (Flow.coreModule 0) w.document).table c
        w.document.activities i unit.environment := by
  intro d
  have hparse : parse d.render = .ok d := parse_of_inWords (by decide +zetaReduce)
  have hloaded : (load (fun _ => none) (Flow.coreModule 0) d.render).toOption.map (fun w =>
      w.units.map fun unit => ["x", "y", "z"].map fun name => (unit.environment.resolve name).map (·.display)) =
        some [[some "Core.String", some "Core.Float", none]] := by
    rw [load, hparse]
    decide +kernel +zetaReduce
  cases hload : load (fun _ => none) (Flow.coreModule 0) d.render with
  | error => rw [hload] at hloaded; cases hloaded
  | ok w =>
    rw [hload] at hloaded
    obtain ⟨c, -, hscoped⟩ := load_scoped hload
    refine ⟨w, rfl, Option.some.inj hloaded, c, fun unit hunit => ?_⟩
    obtain ⟨i, _, _, -, -, -, h⟩ := hscoped unit hunit
    exact ⟨i, h⟩

end Workflow

end FlowCheck
