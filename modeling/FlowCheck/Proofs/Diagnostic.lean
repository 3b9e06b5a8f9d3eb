import Mathlib.Data.List.Forall2
import Mathlib.Data.List.TakeWhile
import FlowCheck.Diagnostic

/-! The order of diagnostics. Sorting is stable, so to take out some of the diagnostics before it or after it
    is the same, and what is sorted falls into its lines. -/

namespace FlowCheck.Diagnostic

theorem le_trans {a b c : Diagnostic} (hab : a.le b = true) (hbc : b.le c = true) : a.le c = true := by
  unfold le at *
  cases ha : a.location with
  | none => rfl
  | some x =>
    cases hb : b.location with
    | none => simp [ha, hb] at hab
    | some y =>
      cases hc : c.location with
      | none => simp [hb, hc] at hbc
      | some z =>
        simp only [ha, hb, hc, Location.le, Bool.or_eq_true, Bool.and_eq_true, decide_eq_true_eq, beq_iff_eq] at *
        omega

theorem le_total (a b : Diagnostic) : (a.le b || b.le a) = true := by
  unfold le
  cases a.location with
  | none => rfl
  | some x =>
    cases b.location with
    | none => rfl
    | some y =>
      simp only [Location.le, Bool.or_eq_true, Bool.and_eq_true, decide_eq_true_eq, beq_iff_eq]
      omega

theorem sorted_sort (ds : List Diagnostic) : (sort ds).Pairwise (fun a b => a.le b = true) :=
  @List.pairwise_mergeSort _ le (fun _ _ _ => le_trans) le_total ds

theorem mem_sort {d : Diagnostic} {ds : List Diagnostic} : d ∈ sort ds ↔ d ∈ ds := List.mem_mergeSort

/-- A diagnostic is sorted in before the first one that it does not come behind. -/
theorem sort_cons (d : Diagnostic) (ds : List Diagnostic) :
    ∃ front back, sort (d :: ds) = front ++ d :: back ∧ sort ds = front ++ back ∧
      (∀ e ∈ front, (!d.le e) = true) ∧ ∀ e ∈ back, (!d.le e) = false := by
  obtain ⟨front, back, hcons, hsort, hfront⟩ :=
    @List.mergeSort_cons _ le (fun _ _ _ => le_trans) le_total d ds
  refine ⟨front, back, hcons, hsort, hfront, fun e he => ?_⟩
  have hsorted := sorted_sort (d :: ds)
  rw [sort, hcons] at hsorted
  have hback := (List.pairwise_append.mp hsorted).2.1
  simpa using List.rel_of_pairwise_cons hback he

section Split

variable {α : Type} {q : α → Bool}

/-- A list has one cut between what does and what does not satisfy a test. -/
theorem split_unique {a b a' b' : List α} (h : a ++ b = a' ++ b') (ha : ∀ x ∈ a, q x = true)
    (hb : ∀ x ∈ b, q x = false) (ha' : ∀ x ∈ a', q x = true) (hb' : ∀ x ∈ b', q x = false) : a = a' ∧ b = b' := by
  have cut : ∀ {a b : List α}, (∀ x ∈ a, q x = true) → (∀ x ∈ b, q x = false) → a = (a ++ b).takeWhile q := by
    intro a b ha hb
    have hnil : b.takeWhile q = [] := by
      cases b with
      | nil => rfl
      | cons x b => simp [hb x (.head _)]
    rw [List.takeWhile_append_of_pos ha, hnil, List.append_nil]
  have hfront : a = a' := by rw [cut ha hb, h, ← cut ha' hb']
  subst hfront
  exact ⟨rfl, List.append_cancel_left h⟩

end Split

/-- Sorting keeps apart what a test keeps apart. -/
theorem filter_sort (p : Diagnostic → Bool) (ds : List Diagnostic) : (sort ds).filter p = sort (ds.filter p) := by
  induction ds with
  | nil => simp [sort]
  | cons d ds ih =>
    obtain ⟨front, back, hcons, hsort, hfront, hback⟩ := sort_cons d ds
    have hrest : front.filter p ++ back.filter p = sort (ds.filter p) := by rw [← ih, hsort, List.filter_append]
    rw [hcons, List.filter_append]
    by_cases hd : p d = true
    · obtain ⟨front', back', hcons', hsort', hfront', hback'⟩ := sort_cons d (ds.filter p)
      obtain ⟨hf, hb⟩ := split_unique (hrest.trans hsort') (fun e he => hfront e (List.mem_filter.mp he).1)
        (fun e he => hback e (List.mem_filter.mp he).1) hfront' hback'
      rw [List.filter_cons_of_pos hd, List.filter_cons_of_pos hd, hcons', hf, hb]
    · rw [List.filter_cons_of_neg hd, List.filter_cons_of_neg hd, hrest]

/-- Sorting keeps together what is related, if related diagnostics are in the same order. -/
theorem rel_sort {R : Diagnostic → Diagnostic → Prop} (hR : ∀ {a b c d}, R a c → R b d → a.le b = c.le d)
    {ds es : List Diagnostic} (h : List.Forall₂ R ds es) : List.Forall₂ R (sort ds) (sort es) := by
  obtain ⟨hlength, hzip⟩ := List.forall₂_iff_zip.mp h
  have hrelated : ∀ z ∈ ds.zip es, R z.1 z.2 := fun z hz => hzip hz
  let pairs := (ds.zip es).mergeSort fun a b => a.1.le b.1
  have hds : pairs.map Prod.fst = sort ds := by
    rw [sort, ← List.map_fst_zip hlength.le]
    exact List.map_mergeSort fun a _ b _ => rfl
  have hes : pairs.map Prod.snd = sort es := by
    rw [sort, ← List.map_snd_zip hlength.ge]
    exact List.map_mergeSort fun a ha b hb => hR (hrelated a ha) (hrelated b hb)
  rw [← hds, ← hes, List.forall₂_map_left_iff, List.forall₂_map_right_iff, List.forall₂_same]
  exact fun z hz => hrelated z (List.mem_mergeSort.mp hz)

/-! ### Lines -/

/-- The diagnostic is about a line. -/
def onLine (k : Nat) (d : Diagnostic) : Bool := d.location.any (·.line == k)

theorem onLine_iff {k : Nat} {d : Diagnostic} : d.onLine k = true ↔ ∃ loc, d.location = some loc ∧ loc.line = k := by
  cases h : d.location <;> simp [onLine, h]

/-- The diagnostic is about none of the lines from some line on. -/
def before (n : Nat) (d : Diagnostic) : Bool := d.location.all (·.line < n)

theorem before_of_onLine {k n : Nat} {d : Diagnostic} (h : d.onLine k = true) : d.before n = true ↔ k < n := by
  obtain ⟨loc, hloc, rfl⟩ := onLine_iff.mp h
  simp [before, hloc]

theorem before_of_le {n : Nat} {a b : Diagnostic} (h : a.le b = true) (hb : b.before n = true) : a.before n = true := by
  unfold before le at *
  cases ha : a.location with
  | none => rfl
  | some x =>
    cases hl : b.location with
    | none => simp [ha, hl] at h
    | some y =>
      simp only [ha, hl, Location.le, Bool.or_eq_true, Bool.and_eq_true, decide_eq_true_eq, beq_iff_eq,
        Option.all_some] at *
      omega

theorem filter_before {ds : List Diagnostic} (hsorted : ds.Pairwise (fun a b => a.le b = true)) (n : Nat) :
    ds = ds.filter (before n) ++ ds.filter (!before n ·) := by
  induction ds with
  | nil => rfl
  | cons d ds ih =>
    obtain ⟨hd, hds⟩ := List.pairwise_cons.mp hsorted
    by_cases hb : d.before n = true
    · simp only [List.filter_cons, hb, ↓reduceIte, Bool.not_true, Bool.false_eq_true, List.cons_append]
      rw [← ih hds]
    · have hnone : ∀ e ∈ d :: ds, ¬e.before n = true := by
        intro e he
        rcases List.mem_cons.mp he with rfl | he
        · exact hb
        · exact fun h => hb (before_of_le (hd e he) h)
      rw [List.filter_eq_nil_iff.mpr hnone, List.nil_append, List.filter_eq_self.mpr]
      simpa using hnone

/-- What is sorted and stands on the first lines is what each line has, line by line. -/
theorem by_line {n : Nat} {ds : List Diagnostic} (hsorted : ds.Pairwise (fun a b => a.le b = true))
    (hlines : ∀ d ∈ ds, ∃ k < n, d.onLine k = true) : ds = (List.range n).flatMap fun k => ds.filter (onLine k) := by
  induction n generalizing ds with
  | zero =>
    cases ds with
    | nil => rfl
    | cons d ds =>
      obtain ⟨k, hk, -⟩ := hlines d (.head _)
      exact absurd hk (Nat.not_lt_zero k)
  | succ n ih =>
    have hlast : ds.filter (!before n ·) = ds.filter (onLine n) := by
      refine List.filter_congr fun d hd => ?_
      obtain ⟨k, hk, hline⟩ := hlines d hd
      obtain ⟨loc, hloc, rfl⟩ := onLine_iff.mp hline
      simp only [before, onLine, hloc, Option.all_some, Option.any_some]
      by_cases h : loc.line = n
      · simp [h]
      · simp [h, Nat.lt_of_le_of_ne (Nat.lt_succ_iff.mp hk) h]
    have hfirst : ∀ k ∈ List.range n, (ds.filter (before n)).filter (onLine k) = ds.filter (onLine k) := by
      intro k hk
      rw [List.filter_filter]
      refine List.filter_congr fun d _ => ?_
      by_cases hline : d.onLine k = true
      · rw [hline, (before_of_onLine hline).mpr (List.mem_range.mp hk)]
        rfl
      · simp [hline]
    have hbefore := ih (hsorted.filter (before n)) fun d hd => by
      obtain ⟨hd, hb⟩ := List.mem_filter.mp hd
      obtain ⟨k, -, hline⟩ := hlines d hd
      exact ⟨k, (before_of_onLine hline).mp hb, hline⟩
    calc ds = ds.filter (before n) ++ ds.filter (!before n ·) := filter_before hsorted n
      _ = (List.range n).flatMap (fun k => ds.filter (onLine k)) ++ ds.filter (onLine n) := by
        rw [hlast]
        conv => lhs; lhs; rw [hbefore]
        rw [List.flatMap_def, List.map_congr_left hfirst, ← List.flatMap_def]
      _ = (List.range (n + 1)).flatMap fun k => ds.filter (onLine k) := by
        rw [List.range_succ, List.flatMap_append, List.flatMap_singleton]

end FlowCheck.Diagnostic
