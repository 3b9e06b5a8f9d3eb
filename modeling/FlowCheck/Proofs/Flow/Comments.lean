import FlowCheck.Proofs.Flow.Content

/-! Comments apart from the scan for their ends. A comment is one lexeme of a text, and every lexeme that starts like a
    comment is one. -/

namespace FlowCheck.Flow

/-- A comment, the text behind it and what is wrong with it. It goes on to the end of its line, or up to the first `*/`.
Where there is none, it goes on to the end of the text. -/
inductive Comment : List Char → List Char → List Problem → Prop where
  | line {body behind} : '\n' ∉ body → (∀ c ∈ behind.head?, c = '\n') → Comment ('/' :: '/' :: body) behind []
  | closed {body behind} : ¬['*', '/'] <:+: body → Comment ('/' :: '*' :: (body ++ ['*', '/'])) behind []
  | unclosed {body} : ¬['*', '/'] <:+: body → Comment ('/' :: '*' :: body) [] [.unclosedComment]

namespace Comment

variable {text behind : List Char} {problems : List Problem}

/-- A comment is one lexeme. -/
theorem next (h : Comment text behind problems) :
    ∃ c rest, text ++ behind = c :: rest ∧ Lexeme.next c rest = (⟨text, none, problems⟩, behind) := by
  cases h with
  | @line body _ hbody hbehind =>
    have hline : ∀ c ∈ body, (c != '\n') = true := fun c hc => bne_iff_ne.mpr fun e => hbody (e ▸ hc)
    have hend : behind.takeWhile (· != '\n') = [] ∧ behind.dropWhile (· != '\n') = behind := by
      cases behind with
      | nil => exact ⟨rfl, rfl⟩
      | cons d behind => simp [hbehind d rfl]
    refine ⟨'/', '/' :: (body ++ behind), rfl, ?_⟩
    rw [Lexeme.next_line, List.takeWhile_append_of_pos hline, List.dropWhile_append_of_pos hline, hend.1, hend.2,
      List.append_nil]
  | @closed body _ hbody =>
    refine ⟨'/', '*' :: (body ++ '*' :: '/' :: behind), by simp, ?_⟩
    rw [Lexeme.next_comment, Scan.comment_closed hbody]
  | @unclosed body hbody =>
    refine ⟨'/', '*' :: body, by simp, ?_⟩
    rw [Lexeme.next_comment, Scan.openComment_of hbody]

/-- A comment says nothing. -/
theorem content (h : Comment text behind problems) : content (text ++ behind) = ⟨[], problems⟩ ++ content behind := by
  obtain ⟨c, rest, htext, hnext⟩ := h.next
  rw [htext, content_cons, hnext]
  rfl

/-- A comment alone is the same comment. -/
theorem alone (h : Comment text behind problems) : Comment text [] problems := by
  cases h with
  | line hbody => exact .line hbody nofun
  | closed hbody => exact .closed hbody
  | unclosed hbody => exact .unclosed hbody

theorem ofLine (text : List Char) :
    Comment ('/' :: '/' :: text.takeWhile (· != '\n')) (text.dropWhile (· != '\n')) [] := by
  refine .line (fun hin => ?_) fun c hc => ?_
  · simpa using List.mem_takeWhile_imp hin
  · have hend := List.head?_dropWhile_not (· != '\n') text
    rw [Option.mem_def.mp hc] at hend
    simpa using hend

theorem ofScan (text : List Char) :
    Comment ('/' :: '*' :: (Scan.comment text).taken) (Scan.comment text).rest (Scan.comment text).problems := by
  rcases Scan.first_end text with hnone | ⟨body, behind, rfl, hbody⟩
  · rw [Scan.openComment_of hnone]
    exact .unclosed hnone
  · rw [Scan.comment_closed hbody]
    exact .closed hbody

end Comment

end FlowCheck.Flow
