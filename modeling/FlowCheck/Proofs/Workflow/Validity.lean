import FlowCheck.Proofs.Workflow.Containment
import FlowCheck.Proofs.Workflow.Load

/-! Which documents are loaded. Modules, containment and expressions are read in three passes, each of which notes
    what is wrong and goes on. A document is loaded if and only if it is valid, and then every expression of it is
    among the expressions that are read, once and with what is its own. -/

namespace FlowCheck.Workflow

variable {files : Files}

/-! ### Expressions -/

/-- A text means a type. -/
def Means (table : ExportTable) (text : String) : Prop := ∃ type, resolve table text = .ok type

/-- The expressions of some activities, each with its activity. -/
def expressionsOf (activities : List ActivitySpec) : List (ActivitySpec × ExpressionSpec) :=
  activities.flatMap fun a => a.expressions.map (a, ·)

/-- An expression as it stands in a document. -/
structure UnitOf (table : ExportTable) (x : ActivitySpec × ExpressionSpec) (unit : ExpressionUnit) : Prop where
  id : unit.id = x.2.id
  text : unit.text = x.2.text
  kind : unit.kind = x.2.kind
  activity : unit.activity = x.1.activity
  type : resolve table x.2.resultType = .ok unit.resultType

namespace UnitsRead

variable {table : ExportTable} {activities : List ActivitySpec} {xs : List (ActivitySpec × ExpressionSpec)}
  {r : UnitsRead} {a : ActivitySpec}

/-- The activities and the expressions that were read so far: without a defect all types are types, no id is there
twice, and the expressions are read as they stand. -/
structure Of (table : ExportTable) (activities : List ActivitySpec) (xs : List (ActivitySpec × ExpressionSpec))
    (r : UnitsRead) : Prop where
  ids : ∀ id, id ∈ r.expressionIds ↔ id ∈ xs.map (·.2.id)
  defects : r.defects = [] ↔ (∀ a ∈ activities, ∀ v ∈ a.locals, Means table v.typeName) ∧
    (∀ x ∈ xs, Means table x.2.resultType) ∧ (xs.map (·.2.id)).Nodup
  units : r.defects = [] → List.Forall₂ (UnitOf table) xs r.units

theorem of_start (table : ExportTable) : Of table [] [] ⟨[], [], [], []⟩ := ⟨by simp, by simp, fun _ => .nil⟩

theorem Of.addExpression (h : Of table activities xs r) (environment : Environment) (e : ExpressionSpec) :
    Of table activities (xs ++ [(a, e)]) (r.addExpression table a environment e) := by
  have hids (id : String) : id ∈ r.expressionIds ++ [e.id] ↔ id ∈ (xs ++ [(a, e)]).map (·.2.id) := by
    simp [h.ids]
  have hdefects : (∀ a ∈ activities, ∀ v ∈ a.locals, Means table v.typeName) ∧
      (∀ x ∈ xs ++ [(a, e)], Means table x.2.resultType) ∧ ((xs ++ [(a, e)]).map (·.2.id)).Nodup ↔
      r.defects = [] ∧ e.id ∉ r.expressionIds ∧ Means table e.resultType := by
    rw [h.defects, h.ids, List.map_append, List.map_singleton, List.nodup_append_comm,
      List.singleton_append, List.nodup_cons, List.forall_mem_append, List.forall_mem_singleton]
    tauto
  have hreject (ds : List Defect) (defect : Defect) : ds ++ [defect] ≠ [] := by simp
  unfold UnitsRead.addExpression
  split
  · rename_i hid
    refine ⟨fun id => ?_, iff_of_false (hreject _ _) fun hall => (hdefects.mp hall).2.1 hid,
      fun hnil => absurd hnil (hreject _ _)⟩
    rw [← hids, List.mem_append, List.mem_singleton]
    exact ⟨.inl, fun hor => hor.elim (fun h => h) fun e => e ▸ hid⟩
  · rename_i hid
    dsimp only
    split
    · rename_i type htype
      refine ⟨hids, ?_, fun hnil => List.rel_append (h.units hnil) (.cons ⟨rfl, rfl, rfl, rfl, htype⟩ .nil)⟩
      exact (Iff.intro (fun hnil => ⟨hnil, hid, type, htype⟩) And.left).trans hdefects.symm
    · rename_i defect htype
      refine ⟨hids, iff_of_false (hreject _ _) fun hall => ?_, fun hnil => absurd hnil (hreject _ _)⟩
      obtain ⟨type, hmeans⟩ := (hdefects.mp hall).2.2
      rw [htype] at hmeans
      cases hmeans

theorem Of.addExpressions (h : Of table activities xs r) (environment : Environment) (es : List ExpressionSpec) :
    Of table activities (xs ++ es.map (a, ·)) (es.foldl (UnitsRead.addExpression table a environment) r) := by
  induction es generalizing xs r with
  | nil => simpa using h
  | cons e es ih => simpa using ih (h.addExpression environment e)

/-- Every variable without a type is a defect. -/
theorem declareAll_defects (vs : List VariableSpec) (found : Environment × List Defect) :
    (vs.foldl (declare table a) found).2 = [] ↔ found.2 = [] ∧ ∀ v ∈ vs, Means table v.typeName := by
  induction vs generalizing found with
  | nil => simp
  | cons v vs ih =>
    rw [List.foldl_cons, ih, List.forall_mem_cons, ← and_assoc]
    refine and_congr_left' ?_
    unfold declare
    split
    · rename_i type htype
      exact ⟨fun hnil => ⟨hnil, type, htype⟩, And.left⟩
    · rename_i defect htype
      refine iff_of_false (by simp) fun hall => ?_
      obtain ⟨type, hmeans⟩ := hall.2
      rw [htype] at hmeans
      cases hmeans

theorem Of.declare (h : Of table activities xs r) {ds : List Defect}
    (hds : ds = [] ↔ r.defects = [] ∧ ∀ v ∈ a.locals, Means table v.typeName)
    (environments : List (Nat × Environment)) :
    Of table (activities ++ [a]) xs { r with environments := environments, defects := ds } := by
  refine ⟨h.ids, ?_, fun hnil => h.units (hds.mp hnil).1⟩
  rw [hds, h.defects, List.forall_mem_append, List.forall_mem_singleton]
  tauto

theorem Of.addActivity (h : Of table activities xs r) (containment : Containment) {specs : List ActivitySpec} {i : Nat}
    (ha : specs[i]? = some a) : Of table (activities ++ [a]) (xs ++ a.expressions.map (a, ·))
      (r.addActivity table containment specs i) := by
  rw [UnitsRead.addActivity, ha]
  exact (h.declare (declareAll_defects _ _) _).addExpressions _ _

theorem Of.addAll (h : Of table activities xs r) (containment : Containment) (specs : List ActivitySpec)
    (order : List Nat) : Of table (activities ++ order.filterMap (specs[·]?))
      (xs ++ expressionsOf (order.filterMap (specs[·]?)))
      (order.foldl (UnitsRead.addActivity table containment specs) r) := by
  induction order generalizing activities xs r with
  | nil => simpa [expressionsOf] using h
  | cons i order ih =>
    cases ha : specs[i]? with
    | none => simpa [UnitsRead.addActivity, ha] using ih h
    | some a => simpa [ha, expressionsOf] using ih (h.addActivity containment ha)

end UnitsRead

/-- In an order that has every place once all activities come, each once. -/
theorem inOrder_perm {specs : List ActivitySpec} {order : List Nat} (h : order.Perm (List.range specs.length)) :
    (order.filterMap (specs[·]?)).Perm specs := by
  have hall (specs : List ActivitySpec) : (List.range specs.length).filterMap (specs[·]?) = specs := by
    induction specs with
    | nil => rfl
    | cons a specs ih =>
      have hfirst : (a :: specs)[0]? = some a := rfl
      rw [List.length_cons, List.range_succ_eq_map, List.filterMap_cons, hfirst, List.filterMap_map]
      exact congrArg _ ih
  exact (h.filterMap _).trans (.of_eq (hall specs))

/-! ### Documents -/

/-- All that makes a document one that can be loaded. -/
structure Document.Valid (files : Files) (core : Module) (d : Document) : Prop where
  modules : d.HasModules files
  forest : Containment.Forest d
  locals : ∀ a ∈ d.activities, ∀ v ∈ a.locals, Means (d.types files core) v.typeName
  results : ∀ x ∈ expressionsOf d.activities, Means (d.types files core) x.2.resultType
  expressions : ((expressionsOf d.activities).map (·.2.id)).Nodup

/-- The expressions of a document as they are met in an order of its activities. -/
def Document.inOrder (d : Document) (order : List Nat) : List (ActivitySpec × ExpressionSpec) :=
  expressionsOf (order.filterMap (d.activities[·]?))

theorem units_ofDocument (table : ExportTable) (d : Document) {c : Containment}
    (h : c.order.Perm (List.range d.activities.length)) :
    ((UnitsRead.ofDocument table c d).defects = [] ↔ (∀ a ∈ d.activities, ∀ v ∈ a.locals, Means table v.typeName) ∧
      (∀ x ∈ expressionsOf d.activities, Means table x.2.resultType) ∧
      ((expressionsOf d.activities).map (·.2.id)).Nodup) ∧
    ((UnitsRead.ofDocument table c d).defects = [] →
      List.Forall₂ (UnitOf table) (d.inOrder c.order) (UnitsRead.ofDocument table c d).units) := by
  obtain ⟨-, hdefects, hunits⟩ := (UnitsRead.of_start table).addAll c d.activities c.order
  have hactivities := inOrder_perm h
  have hexpressions : (d.inOrder c.order).Perm (expressionsOf d.activities) := hactivities.flatMap_right _
  rw [List.nil_append, List.nil_append] at hdefects
  refine ⟨hdefects.trans (and_congr ?_ (and_congr ?_ ?_)), hunits⟩
  · exact forall_congr' fun a => imp_congr_left hactivities.mem_iff
  · exact forall_congr' fun x => imp_congr_left hexpressions.mem_iff
  · exact (hexpressions.map _).nodup_iff

theorem unlessDefects_nil {α : Type} {defects : List Defect} (h : defects = []) (a : α) :
    unlessDefects defects a = .ok a := by
  rw [h]
  rfl

theorem unlessDefects_ne {α : Type} {defects : List Defect} (h : defects ≠ []) (a : α) :
    unlessDefects defects a = .error defects :=
  if_neg fun hempty => h (List.isEmpty_iff.mp hempty)

/-- A text is loaded, or there is something wrong with it. -/
theorem load_cases (files : Files) (core : Module) (text : String) :
    (∃ w c, load files core text = .ok w ∧ Document.ofText? text = some w.document ∧ w.document.Valid files core ∧
      Containment.ofDocument w.document = .ok c ∧ c.order.Perm (List.range w.document.activities.length) ∧
      List.Forall₂ (UnitOf (w.document.types files core)) (w.document.inOrder c.order) w.units) ∨
    ∃ ds, load files core text = .error ds ∧ ds ≠ [] ∧ ∀ d, Document.ofText? text = some d → ¬d.Valid files core := by
  cases hd : Document.ofText? text with
  | none => exact .inr ⟨[.malformed], by rw [load, parse, hd]; rfl, by simp, nofun⟩
  | some d =>
    obtain ⟨hmodules, htable⟩ := modules_ofDocument files core d
    have hload : load files core text = (unlessDefects (ModulesRead.ofDocument files core d).defects () >>= fun _ =>
        Containment.ofDocument d >>= fun c =>
          let units := UnitsRead.ofDocument (ModulesRead.ofDocument files core d).table c d
          unlessDefects units.defects ⟨d, (ModulesRead.ofDocument files core d).modules, units.units⟩) := by
      rw [load, parse, hd]
      rfl
    have refuse {ds : List Defect} (hds : load files core text = .error ds) (hne : ds ≠ [])
        (hinvalid : ¬d.Valid files core) :
        ∃ ds, load files core text = .error ds ∧ ds ≠ [] ∧ ∀ d', some d = some d' → ¬d'.Valid files core :=
      ⟨ds, hds, hne, fun d' e => Option.some.inj e ▸ hinvalid⟩
    by_cases hread : (ModulesRead.ofDocument files core d).defects = []
    · rw [unlessDefects_nil hread, htable hread] at hload
      rcases Containment.ofDocument_cases d with ⟨c, hc, hforest, hof⟩ | ⟨ds, hc, hnone, hne⟩
      · have horder := hof.order_perm
        obtain ⟨hdefects, hunits⟩ := units_ofDocument (d.types files core) d horder
        rw [hc] at hload
        by_cases hall : (UnitsRead.ofDocument (d.types files core) c d).defects = []
        · obtain ⟨hlocals, hresults, hids⟩ := hdefects.mp hall
          exact .inl ⟨_, c, hload.trans (unlessDefects_nil hall _), rfl,
            ⟨hmodules.mp hread, hforest, hlocals, hresults, hids⟩, hc, horder, hunits hall⟩
        · exact .inr (refuse (hload.trans (unlessDefects_ne hall _)) hall fun hvalid =>
            hall (hdefects.mpr ⟨hvalid.locals, hvalid.results, hvalid.expressions⟩))
      · rw [hc] at hload
        exact .inr (refuse hload hne fun hvalid => hnone hvalid.forest)
    · rw [unlessDefects_ne hread] at hload
      exact .inr (refuse hload hread fun hvalid => hread (hmodules.mpr hvalid.modules))

/-- The types of the expressions that are loaded are looked up among those of the references of modules. -/
theorem load_resolved {core : Module} {text : String} {w : Loaded} (h : load files core text = .ok w) :
    let table := (ModulesRead.ofDocument files core w.document).table
    table.Genuine files ∧ ∀ unit ∈ w.units, ∃ source, resolve table source = .ok unit.resultType := by
  rcases load_cases files core text with ⟨w', c, hload, -, hvalid, -, -, hunits⟩ | ⟨ds, hload, -⟩
  · obtain rfl := Except.ok.inj (hload.symm.trans h)
    obtain ⟨hmodules, htable⟩ := modules_ofDocument files core w'.document
    rw [htable (hmodules.mpr hvalid.modules)]
    have hresolved : List.Forall₂ (fun (unit : ExpressionUnit) _ =>
        (∃ source, resolve (w'.document.types files core) source = .ok unit.resultType) ∧ True) w'.units _ :=
      hunits.flip.imp fun unit x hunit => ⟨⟨x.2.resultType, hunit.type⟩, trivial⟩
    exact ⟨w'.document.genuine_types files core, ((List.forall₂_and_left _ _).mp hresolved).1⟩
  · rw [hload] at h
    cases h

/-- Just the valid documents are loaded; of any other text something is said to be wrong. Of a document that is
loaded the expressions are read activity by activity, in the order of containment, which has every activity once:
each of them as it stands, under the activity that it belongs to. -/
theorem load_valid (files : Files) (core : Module) (text : String) :
    ((∃ w, load files core text = .ok w) ↔ ∃ d, Document.ofText? text = some d ∧ d.Valid files core) ∧
    (∀ ds, load files core text = .error ds → ds ≠ []) ∧
    ∀ w, load files core text = .ok w → Document.ofText? text = some w.document ∧
      ∃ c, Containment.ofDocument w.document = .ok c ∧ c.order.Perm (List.range w.document.activities.length) ∧
        (w.document.inOrder c.order).Perm (expressionsOf w.document.activities) ∧
        List.Forall₂ (UnitOf (w.document.types files core)) (w.document.inOrder c.order) w.units := by
  rcases load_cases files core text with ⟨w, c, hload, htext, hvalid, hc, horder, hunits⟩ | ⟨ds, hload, hne, hinvalid⟩
  · rw [hload]
    refine ⟨⟨fun _ => ⟨w.document, htext, hvalid⟩, fun _ => ⟨w, rfl⟩⟩, nofun, fun w' hw' => ?_⟩
    obtain rfl := Except.ok.inj hw'
    exact ⟨htext, c, hc, horder, (inOrder_perm horder).flatMap_right _, hunits⟩
  · rw [hload]
    refine ⟨⟨nofun, fun ⟨d, hd, hvalid⟩ => absurd hvalid (hinvalid d hd)⟩, ?_, nofun⟩
    exact fun es hes => Except.error.inj hes ▸ hne

end FlowCheck.Workflow
