import FlowCheck.Batch
import FlowCheck.Proofs.Attribution
import FlowCheck.Proofs.Flow.Rows

/-! The lines of a Flow batch. Each expression has a line of its own, which starts with the marker of the
    expression and is an item behind it. -/

namespace FlowCheck

open FlowCheck.Text

namespace ExpressionUnit

/-- The variables that an expression uses. -/
def resolved (unit : ExpressionUnit) : List Parameter :=
  (distinctBy Flow.language.identifierKey (Flow.freeIdentifiers unit.text)).filterMap fun name =>
    (unit.environment.resolve name).map fun type => ⟨name, type.display⟩

/-- What the line of an expression is made of. -/
def parts (unit : ExpressionUnit) (index : Nat) : Fragment where
  marker := Flow.language.marker.render ⟨unit.id, index⟩
  index := index
  kind := unit.kind
  parameters := unit.resolved
  returnType := unit.resultType.display
  text := oneLine unit.text

/-- For every expression there is a line. -/
theorem fragment_flow (unit : ExpressionUnit) (index : Nat) :
    unit.fragment Flow.language index = .ok (Flow.fragment (unit.parts index)) := by
  rw [fragment, parameters]
  rfl

/-- The item of an expression between its `fn` and the expression. -/
def header (unit : ExpressionUnit) (index : Nat) : List Char :=
  ' ' :: '_' :: '_' :: 'e' :: 'x' :: 'p' :: 'r' :: (Numeral.digits index ++ '(' ::
    ((", ".intercalate (unit.resolved.map Flow.parameterText)).toList ++ ')' :: ' ' :: '-' :: '>' :: ' ' ::
      ((match unit.kind with | .value => [] | .reference => ['r', 'e', 'f', ' ']) ++
        unit.resultType.display.toList ++ [' ', '=', '>', ' '])))

theorem parts_toList (unit : ExpressionUnit) (index : Nat) : (Flow.fragment (unit.parts index)).toList =
    (Flow.language.marker.render ⟨unit.id, index⟩).toList ++ ' ' :: 'f' :: 'n' ::
      (unit.header index ++ Line.collapse unit.text.toList ++ [';']) := by
  have hlist : (unit.resolved.map Flow.parameterText).map String.toList =
      unit.resolved.map (String.toList ∘ Flow.parameterText) := List.map_map
  cases hk : unit.kind <;> simp [Flow.fragment, parts, header, hk, Numeral.text, oneLine]

end ExpressionUnit

namespace MarkerPattern

theorem flow_render (m : Marker) : (Flow.language.marker.render m).toList =
    '/' :: '*' :: ('@' :: (body m ++ ['@']) ++ ['*', '/']) := by
  simp [render, Flow.language]

/-- A marker is a comment of Flow. -/
theorem body_plain (m : Marker) : ∀ c ∈ '@' :: (body m ++ ['@']), c ≠ '*' ∧ c ≠ '/' ∧ c ≠ '\n' ∧ c ≠ '\r' := by
  intro c hc
  rcases List.mem_cons.mp hc with rfl | hc
  · decide
  · rcases List.mem_append.mp hc with hc | hc
    · refine ⟨?_, ?_, ?_, ?_⟩ <;> exact fun e => notMem_body (by decide) m (e ▸ hc)
    · rw [List.mem_singleton.mp hc]
      decide

end MarkerPattern

namespace ExpressionUnit

theorem inner_spaced (unit : ExpressionUnit) (index : Nat) :
    (Line.collapse (unit.header index ++ Line.collapse unit.text.toList ++ [';'])).head? = some ' ' := by
  rw [header, List.cons_append, List.cons_append, Line.collapse_cons (by decide)]
  rfl

theorem inner_ended (unit : ExpressionUnit) (index : Nat) :
    (Line.collapse (unit.header index ++ Line.collapse unit.text.toList ++ [';'])).getLast? = some ';' := by
  rw [Line.collapse_append _ (by decide), List.getLast?_append]
  rfl

/-- The line of an expression. -/
def row (unit : ExpressionUnit) (index : Nat) : Flow.Row where
  label := '@' :: (MarkerPattern.body ⟨unit.id, index⟩ ++ ['@'])
  inner := Line.collapse (unit.header index ++ Line.collapse unit.text.toList ++ [';'])
  plain c hc := ⟨(MarkerPattern.body_plain _ c hc).1, (MarkerPattern.body_plain _ c hc).2.1,
    (MarkerPattern.body_plain _ c hc).2.2.1⟩
  spaced := unit.inner_spaced index
  flat := (Line.flat_collapse _).notMem
  ended := unit.inner_ended index

theorem comment_row (unit : ExpressionUnit) (index : Nat) :
    (unit.row index).comment = (Flow.language.marker.render ⟨unit.id, index⟩).toList := by
  rw [MarkerPattern.flow_render]
  rfl

theorem comment_flat (unit : ExpressionUnit) (index : Nat) : Line.Flat (unit.row index).comment := by
  rw [comment_row, MarkerPattern.flow_render]
  refine List.forall_mem_cons.mpr ⟨by decide, List.forall_mem_cons.mpr ⟨by decide, ?_⟩⟩
  refine Line.Flat.append (fun c hc => ?_) (by simp [Line.Flat])
  exact (MarkerPattern.body_plain _ c hc).2.2

/-- The line of an expression as it stands in the source of the batch. -/
theorem text_row (unit : ExpressionUnit) (index : Nat) :
    oneLine (Flow.fragment (unit.parts index)) = String.ofList (unit.row index).text := by
  rw [oneLine, parts_toList, ← comment_row, Line.collapse_append _ (by simp),
    Line.collapse_flat (unit.comment_flat index)]
  simp only [Line.collapse_cons (show ' ' ≠ '\r' by decide), Line.collapse_cons (show 'f' ≠ '\r' by decide),
    Line.collapse_cons (show 'n' ≠ '\r' by decide)]
  rfl

/-- An expression without variables, whose type is one of the core module. -/
def ofText (id text type : String) : ExpressionUnit :=
  ⟨id, text, .ofFullName type (Flow.coreModule 0) none [], .empty, .value, ⟨"act", "Activity act"⟩⟩

end ExpressionUnit

end FlowCheck
