import FlowCheck.Proofs.Json.Record
import FlowCheck.Workflow.Load

/-! A document is read again from its written form. The only values that are lost are numbers of type arguments
    beyond a word, and no document that was read has one. -/

namespace FlowCheck.Workflow

open FlowCheck.Json

/-- The exports take numbers of type arguments that fit into a word. -/
def ModuleSpec.InWords (m : ModuleSpec) : Prop := ∀ es ∈ m.exports, ∀ e ∈ es, e.arity < arityLimit

/-- The exports of all modules take numbers of type arguments that fit into a word. -/
def Document.InWords (d : Document) : Prop := ∀ m ∈ d.modules, m.InWords

instance (m : ModuleSpec) : Decidable m.InWords :=
  inferInstanceAs (Decidable (∀ es ∈ m.exports, ∀ e ∈ es, e.arity < arityLimit))

instance (d : Document) : Decidable d.InWords := inferInstanceAs (Decidable (∀ m ∈ d.modules, m.InWords))

/-! ### Parts -/

theorem coded_module {m : ModuleSpec} (h : m.InWords) : Coded ModuleSpec.toValue ModuleSpec.ofValue? m := by
  have hkind : Coded (fun k => .text (moduleKindText k)) (word? moduleKinds) m.kind :=
    .word (by cases m.kind <;> rfl)
  have hexports : ∀ es ∈ m.exports, Coded (.list ofTypeExport) (list? typeExport?) es :=
    fun es hes => .list fun e he => coded_typeExport (h es hes e he)
  have hlocation : ∀ s ∈ m.location, Coded .text string? s := fun s _ => .text s
  refine ⟨readable_record ?_, ?_⟩
  · simp [readable_text, Readable.option hexports, Readable.option hlocation]
  · have hfields : fields? ["name", "kind", "exports", "location"] m.toValue =
        some [some (.text m.name), some (.text (moduleKindText m.kind)),
          some (.option (.list ofTypeExport) m.exports), some (.option .text m.location)] :=
      fields?_record [_, _, _, _] (by simp)
    rw [ModuleSpec.ofValue?, hfields]
    simp [required, withDefault, (Coded.text m.name).decoded, hkind.decoded, optional_option rfl hexports,
      optional_option rfl hlocation]

theorem coded_imports (i : Imports) : Coded Imports.toValue Imports.ofValue? i := by
  have hnamespaces := Coded.list fun s (_ : s ∈ i.namespaces) => Coded.text s
  have hmodules := Coded.list fun s (_ : s ∈ i.modules) => Coded.text s
  refine ⟨readable_record ?_, ?_⟩
  · simp [hnamespaces.readable, hmodules.readable]
  · have hfields : fields? ["namespaces", "modules"] i.toValue =
        some [some (.list .text i.namespaces), some (.list .text i.modules)] := fields?_record [_, _] (by simp)
    rw [Imports.ofValue?, hfields]
    simp [withDefault, hnamespaces.decoded, hmodules.decoded]

theorem coded_variable (v : VariableSpec) : Coded VariableSpec.toValue VariableSpec.ofValue? v where
  readable := readable_record (by simp [readable_text])
  decoded := by
    have hfields : fields? ["name", "type"] v.toValue = some [some (.text v.name), some (.text v.typeName)] :=
      fields?_record [_, _] (by simp)
    rw [VariableSpec.ofValue?, hfields]
    rfl

theorem coded_expression (e : ExpressionSpec) : Coded ExpressionSpec.toValue ExpressionSpec.ofValue? e := by
  have hkind : Coded (fun k => .text (expressionKindText k)) (word? expressionKinds) e.kind :=
    .word (by cases e.kind <;> rfl)
  refine ⟨readable_record (by simp [readable_text]), ?_⟩
  have hfields : fields? ["id", "text", "resultType", "kind"] e.toValue =
      some [some (.text e.id), some (.text e.text), some (.text e.resultType),
        some (.text (expressionKindText e.kind))] := fields?_record [_, _, _, _] (by simp)
  rw [ExpressionSpec.ofValue?, hfields]
  simp [required, withDefault, (Coded.text _).decoded, hkind.decoded]

theorem coded_activity (a : ActivitySpec) : Coded ActivitySpec.toValue ActivitySpec.ofValue? a := by
  have hname : ∀ s ∈ a.displayName, Coded .text string? s := fun s _ => .text s
  have hlocals := Coded.list fun v (_ : v ∈ a.locals) => coded_variable v
  have hexpressions := Coded.list fun e (_ : e ∈ a.expressions) => coded_expression e
  refine ⟨readable_record ?_, ?_⟩
  · simp [readable_text, Readable.option hname, hlocals.readable, hexpressions.readable]
  · have hfields : fields? ["id", "displayName", "variables", "expressions"] a.toValue =
        some [some (.text a.id), some (.option .text a.displayName), some (.list VariableSpec.toValue a.locals),
          some (.list ExpressionSpec.toValue a.expressions)] := fields?_record [_, _, _, _] (by simp)
    rw [ActivitySpec.ofValue?, hfields]
    simp [required, withDefault, (Coded.text a.id).decoded, optional_option rfl hname, hlocals.decoded,
      hexpressions.decoded]

theorem coded_edge (e : Edge) : Coded Edge.toValue Edge.ofValue? e where
  readable := readable_record (by simp [readable_text])
  decoded := by
    have hfields : fields? ["parent", "child"] e.toValue = some [some (.text e.parent), some (.text e.child)] :=
      fields?_record [_, _] (by simp)
    rw [Edge.ofValue?, hfields]
    rfl

/-! ### Documents -/

theorem coded_document {d : Document} (h : d.InWords) : Coded Document.toValue Document.ofValue? d := by
  have hname : ∀ s ∈ d.name, Coded .text string? s := fun s _ => .text s
  have hmodules := Coded.list fun m (hm : m ∈ d.modules) => coded_module (h m hm)
  have himports := coded_imports d.imports
  have hactivities := Coded.list fun a (_ : a ∈ d.activities) => coded_activity a
  have hedges := Coded.list fun e (_ : e ∈ d.edges) => coded_edge e
  refine ⟨readable_record ?_, ?_⟩
  · simp [readable_text, Readable.option hname, hmodules.readable, himports.readable, hactivities.readable,
      hedges.readable]
  · have hfields : fields? ["id", "name", "modules", "imports", "activities", "edges"] d.toValue =
        some [some (.text d.id), some (.option .text d.name), some (.list ModuleSpec.toValue d.modules),
          some d.imports.toValue, some (.list ActivitySpec.toValue d.activities),
          some (.list Edge.toValue d.edges)] := fields?_record [_, _, _, _, _, _] (by simp)
    rw [Document.ofValue?, hfields]
    simp [required, withDefault, (Coded.text d.id).decoded, optional_option rfl hname, hmodules.decoded,
      himports.decoded, hactivities.decoded, hedges.decoded]

/-- What is written is read. -/
theorem parse_of_inWords {d : Document} (h : d.InWords) : parse d.render = .ok d := by
  have hd := coded_document h
  rw [parse, Document.ofText?, Document.render, read?_render hd.readable, Option.bind_some, hd.decoded]

/-! ### What was read -/

theorem inWords_module {v : Value} {m : ModuleSpec} (h : ModuleSpec.ofValue? v = some m) : m.InWords := by
  unfold ModuleSpec.ofValue? at h
  split at h
  · obtain ⟨_, -, h⟩ := Option.bind_eq_some_iff.mp h
    obtain ⟨_, -, h⟩ := Option.bind_eq_some_iff.mp h
    obtain ⟨exports, hexports, h⟩ := Option.bind_eq_some_iff.mp h
    obtain ⟨_, -, h⟩ := Option.bind_eq_some_iff.mp h
    cases h
    intro es hes e he
    obtain ⟨v, hv⟩ := of_optional hexports hes
    obtain ⟨w, hw⟩ := of_list? hv he
    exact arity_of_typeExport? hw
  · cases h

theorem inWords_document {v : Value} {d : Document} (h : Document.ofValue? v = some d) : d.InWords := by
  unfold Document.ofValue? at h
  split at h
  · obtain ⟨_, -, h⟩ := Option.bind_eq_some_iff.mp h
    obtain ⟨_, -, h⟩ := Option.bind_eq_some_iff.mp h
    obtain ⟨modules, hmodules, h⟩ := Option.bind_eq_some_iff.mp h
    obtain ⟨_, -, h⟩ := Option.bind_eq_some_iff.mp h
    obtain ⟨_, -, h⟩ := Option.bind_eq_some_iff.mp h
    obtain ⟨_, -, h⟩ := Option.bind_eq_some_iff.mp h
    cases h
    intro m hm
    rcases of_withDefault hmodules with rfl | ⟨v, hv⟩
    · cases hm
    · obtain ⟨w, hw⟩ := of_list? hv hm
      exact inWords_module hw
  · cases h

theorem inWords_of_parse {text : String} {d : Document} (h : parse text = .ok d) : d.InWords := by
  unfold parse at h
  split at h
  · rename_i d' hd
    cases h
    obtain ⟨v, -, hv⟩ := Option.bind_eq_some_iff.mp hd
    exact inWords_document hv
  · cases h

/-! ### There and back -/

/-- Reading gives back exactly the documents whose numbers of type arguments are words, and every document that was
    ever read is one of them. -/
theorem parse_render (d : Document) :
    (parse d.render = .ok d ↔ d.InWords) ∧ ∀ text, parse text = .ok d → parse d.render = .ok d := by
  refine ⟨⟨inWords_of_parse, parse_of_inWords⟩, fun text h => ?_⟩
  exact parse_of_inWords (inWords_of_parse h)

/-- A document with characters of all kinds that are escaped, and with the greatest word; and one that was read from a
    text with blanks and without its defaults. -/
theorem parse_render_escaped :
    let e : TypeExport := ⟨"N.\u65e5\"", arityLimit - 1, none, [⟨"\x00\x1f", "\\/\x7f"⟩]⟩
    let d : Document := ⟨"\"\n\t\r\\", some "\x08\x0c",
      [⟨"é", .dynamic, some [e], none⟩, ⟨"", .static, none, some "f"⟩], ⟨["N"], []⟩,
      [⟨"a", none, [⟨"x", "String"⟩], [⟨"1", "x", "String", .reference⟩]⟩], [⟨"a", "a"⟩]⟩
    let bare : Document := ⟨"a", none, [], ⟨[], []⟩, [], []⟩
    d.InWords ∧ parse d.render = .ok d ∧ parse "\x7b\"id\": \"a\"\x7d" = .ok bare ∧ parse bare.render = .ok bare := by
  intro e d bare
  have hwords : d.InWords := by decide +zetaReduce
  have hread : parse "\x7b\"id\": \"a\"\x7d" = .ok bare := by decide +kernel +zetaReduce
  exact ⟨hwords, (parse_render d).1.mpr hwords, hread, (parse_render bare).2 _ hread⟩

end FlowCheck.Workflow
