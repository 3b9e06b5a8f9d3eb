import FlowCheck.Flow.Language
import FlowCheck.Proofs.Text

/-! Markers are found again. Between its delimiters a marker has few kinds of characters. So a closing delimiter with
    any other character ends the marker where it was written and nowhere before, and the marker is found wherever its
    opening delimiter is met first. -/

namespace FlowCheck.MarkerPattern

open FlowCheck.Text

/-- The characters that a marker may have between its delimiters. -/
def inBody (c : Char) : Bool := Escape.isPlain c || c == '%' || c == '#'

theorem ofBody?_body {m : Marker} (h : m.index < Marker.indexLimit) : ofBody? (body m) = some m := by
  have hcut : cutLast? '#' (body m) = some (Escape.encode m.expressionId.toList, Numeral.digits m.index) :=
    cutLast?_of_notMem (Numeral.notMem_digits rfl _)
  simp only [ofBody?, hcut, Escape.decode?_encode, Numeral.readSigned?_digits h, String.ofList_toList]

theorem inBody_of_mem {m : Marker} {c : Char} (h : c ∈ body m) : inBody c = true := by
  rcases List.mem_append.mp h with h | h
  · rcases Escape.isPlain_of_mem h with hc | rfl
    · simp [inBody, hc]
    · rfl
  · rcases List.mem_cons.mp h with rfl | h
    · rfl
    · simp [inBody, Escape.isPlain, Numeral.isDigit_of_mem h]

theorem notMem_body {c : Char} (h : inBody c = false) (m : Marker) : c ∉ body m :=
  fun hm => Bool.false_ne_true (h.symm.trans (inBody_of_mem hm))

section Find

variable {p : MarkerPattern} {m : Marker} (hclosing : ∃ c ∈ p.closing.toList, inBody c = false)
  (hindex : m.index < Marker.indexLimit)
include hclosing hindex

theorem after?_body (rest : List Char) : p.after? (body m ++ (p.closing.toList ++ rest)) = some m := by
  rw [after?, cutFirst?_of_foreign (fun _ => inBody_of_mem) hclosing, Option.bind_some, ofBody?_body hindex]

/-- A marker is found on a line if its opening delimiter is the first one there. -/
theorem findIn_of_first {front rest : List Char} (hfirst : ∀ back, cutFirst? p.opening.toList
    (front ++ (p.opening.toList ++ back)) = some (front, back)) :
    p.findIn (front ++ ((p.render m).toList ++ rest)) = some m := by
  have hline : (p.render m).toList ++ rest = p.opening.toList ++ (body m ++ (p.closing.toList ++ rest)) := by
    simp [render]
  rw [hline, findIn, hfirst]
  simp only [after?_body hclosing hindex]

/-- The marker at the front of a line is found. -/
theorem findIn_render (rest : List Char) : p.findIn ((p.render m).toList ++ rest) = some m := by
  have hfirst (back : List Char) : cutFirst? p.opening.toList ([] ++ (p.opening.toList ++ back)) = some ([], back) :=
    cutFirst?_front _ back
  exact findIn_of_first hclosing hindex hfirst

theorem findIn_behind {front : List Char} (hopening : Unbordered p.opening.toList)
    (hfront : ¬p.opening.toList <:+: front) (rest : List Char) :
    p.findIn (front ++ ((p.render m).toList ++ rest)) = some m :=
  findIn_of_first hclosing hindex (cutFirst?_of_unbordered hopening hfront)

end Find

/-- A marker is read back from the front of any text if its closing delimiter has a character that stands in no
marker. A marker of Flow is read back behind anything that has no opening delimiter. -/
theorem find_render {m : Marker} (h : m.index < Marker.indexLimit) (text : String) :
    (∀ p : MarkerPattern, (∃ c ∈ p.closing.toList, inBody c = false) → p.find (p.render m ++ text) = some m) ∧
      ∀ front : String, ¬Flow.language.marker.opening.toList <:+: front.toList →
        Flow.language.marker.find (front ++ Flow.language.marker.render m ++ text) = some m := by
  refine ⟨fun p hclosing => ?_, fun front hfront => ?_⟩
  · rw [find, String.toList_append]
    exact findIn_render hclosing h _
  · have hclosing : ∃ c ∈ Flow.language.marker.closing.toList, inBody c = false := ⟨'@', by decide⟩
    have hopening : Unbordered Flow.language.marker.opening.toList := by decide
    rw [find, String.toList_append, String.toList_append, List.append_assoc]
    exact findIn_behind hclosing h hopening hfront _

/-- An id with the delimiters in it, the last position there is, delimiters that begin as the id does, and parts of an
opening delimiter before the marker. -/
theorem find_render_overlapping :
    let m : Marker := ⟨"#0é@*//*@", 18446744073709551615⟩
    let p : MarkerPattern := ⟨"%23", "#0!"⟩
    m.index < Marker.indexLimit ∧ (∃ c ∈ p.closing.toList, inBody c = false) ∧ p.find (p.render m ++ "0!#0!") = some m ∧
      ¬Flow.language.marker.opening.toList <:+: "//*/".toList ∧
      Flow.language.marker.find ("//*/" ++ Flow.language.marker.render m ++ "@*/") = some m := by
  intro m p
  have hindex : m.index < Marker.indexLimit := by decide
  have hclosing : ∃ c ∈ p.closing.toList, inBody c = false := ⟨'!', by decide⟩
  have hfront : ¬Flow.language.marker.opening.toList <:+: "//*/".toList := by decide
  exact ⟨hindex, hclosing, (find_render hindex "0!#0!").1 p hclosing, hfront,
    (find_render hindex "@*/").2 "//*/" hfront⟩

end FlowCheck.MarkerPattern
