import Mathlib.Data.Fintype.Pigeonhole
import Mathlib.Data.List.Nodup
import Mathlib.Data.List.Perm.Lattice
import Mathlib.Logic.Relation
import FlowCheck.Workflow.Containment

/-! Containment as a forest. From an activity one climbs to those that contain it. Where no climb comes back to
    where it began, the order of a document meets every activity once; and just the documents are refused whose
    edges make no forest. -/

namespace FlowCheck.Workflow

namespace Containment

variable {c : Containment} {i j a b : Nat} {k l : Nat}

/-! ### Climbing -/

theorem climb_add (c : Containment) (k l i : Nat) : c.climb (k + l) i = (c.climb k i).bind (c.climb l) := by
  induction k generalizing i with
  | zero => rw [Nat.zero_add]; rfl
  | succ k ih =>
    rw [Nat.add_right_comm, climb, climb]
    cases c.parent? i with
    | none => rfl
    | some p => exact ih p

theorem climb_succ (c : Containment) (k i : Nat) : c.climb (k + 1) i = (c.climb k i).bind c.parent? := by
  rw [climb_add]
  refine congrArg _ (funext fun j => ?_)
  rw [climb]
  cases c.parent? j <;> rfl

/-- A climb of some steps has a first step. -/
theorem climb_first : c.climb (k + 1) j = some i ↔ ∃ p, c.parent? j = some p ∧ c.climb k p = some i :=
  Option.bind_eq_some_iff

/-- A climb of some steps has a last step. -/
theorem climb_last : c.climb (k + 1) j = some i ↔ ∃ p, c.climb k j = some p ∧ c.parent? p = some i := by
  rw [climb_succ, Option.bind_eq_some_iff]

theorem lt_size_of_parent (h : c.parent? j = some i) : j < c.size := by
  by_contra hj
  rw [parent?, Array.getElem?_eq_none (Nat.not_lt.mp hj)] at h
  cases h

theorem lt_size_of_climb (hi : i < c.size) (h : c.climb k j = some i) : j < c.size := by
  cases k with
  | zero => exact Option.some.inj h ▸ hi
  | succ k =>
    obtain ⟨p, hp, -⟩ := climb_first.mp h
    exact lt_size_of_parent hp

/-- Of two climbs from one place the longer goes on from where the shorter ends. -/
theorem climb_sub (ha : c.climb k j = some a) (hb : c.climb l j = some b) (h : k ≤ l) :
    c.climb (l - k) a = some b := by
  rw [← Nat.add_sub_cancel' h, climb_add, ha] at hb
  exact hb

/-- No activity contains itself, directly or through others. -/
def Acyclic (c : Containment) : Prop := ∀ i k, 0 < k → c.climb k i ≠ some i

/-- Every container is one of the activities. -/
def Closed (c : Containment) : Prop := ∀ j i, c.parent? j = some i → i < c.size

theorem Closed.climb_lt (h : c.Closed) (hj : j < c.size) (hi : c.climb k j = some i) : i < c.size := by
  cases k with
  | zero => exact Option.some.inj hi ▸ hj
  | succ k =>
    obtain ⟨p, -, hp⟩ := climb_last.mp hi
    exact h p i hp

theorem climb_isSome_of_le (h : (c.climb l i).isSome) (hk : k ≤ l) : (c.climb k i).isSome := by
  rw [← Nat.add_sub_cancel' hk, climb_add] at h
  exact Option.isSome_of_isSome_bind h

/-- A climb that ends has a last step. -/
theorem exists_last (h : c.climb l j = none) : ∃ k < l, ∃ r, c.climb k j = some r ∧ c.parent? r = none := by
  induction l with
  | zero => cases h
  | succ l ih =>
    cases hl : c.climb l j with
    | none =>
      obtain ⟨k, hk, hlast⟩ := ih hl
      exact ⟨k, Nat.lt_succ_of_lt hk, hlast⟩
    | some r => exact ⟨l, Nat.lt_succ_self l, r, hl, by rwa [climb_succ, hl] at h⟩

/-- A climb as long as there are activities goes through one of them twice. -/
theorem Closed.isCyclic_iff (h : c.Closed) : c.isCyclic = true ↔ ¬c.Acyclic := by
  simp only [isCyclic, List.any_eq_true, List.mem_range, Acyclic, not_forall, not_not]
  constructor
  · rintro ⟨i, hi, hclimb⟩
    have hsome (k : Fin (c.size + 1)) : (c.climb k i).isSome := climb_isSome_of_le hclimb (Nat.lt_succ_iff.mp k.isLt)
    -- The climb goes through `size + 1` places, so two of them are the same.
    let place (k : Fin (c.size + 1)) : Fin c.size :=
      ⟨(c.climb k i).get (hsome k), h.climb_lt hi (Option.some_get (hsome k)).symm⟩
    obtain ⟨k, l, hne, hsame⟩ := Fintype.exists_ne_map_eq_of_card_lt place (by simp)
    wlog hlt : k < l generalizing k l
    · exact this l k hne.symm hsame.symm (lt_of_le_of_ne (not_lt.mp hlt) hne.symm)
    have hk : c.climb k i = some (place k).val := (Option.some_get (hsome k)).symm
    have hl : c.climb l i = some (place k).val := hsame ▸ (Option.some_get (hsome l)).symm
    exact ⟨_, _, Nat.sub_pos_of_lt hlt, climb_sub hk hl (Nat.le_of_lt hlt)⟩
  · rintro ⟨i, k, hk, hround⟩
    -- From `i` one may go round as often as one likes, so no climb from there ends.
    have hrounds (n : Nat) : c.climb (k * n) i = some i := by
      induction n with
      | zero => rfl
      | succ n ih => rw [Nat.mul_succ, climb_add, ih, Option.bind_some, hround]
    have hsize : c.size ≤ k * c.size := Nat.le_mul_of_pos_left _ hk
    have hone : (c.climb 1 i).isSome := climb_isSome_of_le (l := k) (by simp [hround]) hk
    obtain ⟨p, hp⟩ := Option.isSome_iff_exists.mp hone
    rw [climb_succ] at hp
    exact ⟨i, lt_size_of_parent hp, climb_isSome_of_le (by simp [hrounds]) hsize⟩

/-! ### The order -/

theorem mem_children : j ∈ c.children i ↔ c.parent? j = some i := by
  simp only [children, List.mem_filter, List.mem_range, beq_iff_eq]
  exact ⟨And.right, fun h => ⟨lt_size_of_parent h, h⟩⟩

theorem mem_roots : j ∈ c.roots ↔ j < c.size ∧ c.parent? j = none := by
  simp [roots]

/-- Met below an activity are those from which one climbs to it. -/
theorem mem_preorder {depth : Nat} : j ∈ c.preorder depth i ↔ ∃ k < depth, c.climb k j = some i := by
  induction depth generalizing i with
  | zero => simp [preorder]
  | succ depth ih =>
    simp only [preorder, List.mem_cons, List.mem_flatMap, mem_children, ih]
    constructor
    · rintro (rfl | ⟨p, hp, k, hk, hclimb⟩)
      · exact ⟨0, Nat.zero_lt_succ _, rfl⟩
      · exact ⟨k + 1, Nat.succ_lt_succ hk, climb_last.mpr ⟨p, hclimb, hp⟩⟩
    · rintro ⟨k, hk, hclimb⟩
      cases k with
      | zero => exact .inl (Option.some.inj hclimb)
      | succ k =>
        obtain ⟨p, hp, hparent⟩ := climb_last.mp hclimb
        exact .inr ⟨p, hparent, k, Nat.lt_of_succ_lt_succ hk, hp⟩

section Acyclic

variable (h : c.Acyclic)
include h

/-- From one place one climbs to at most one of two activities that are in the same place of the forest. -/
theorem Acyclic.apart (hparent : c.parent? a = c.parent? b) (ha : c.climb k j = some a) (hb : c.climb l j = some b) :
    a = b := by
  wlog hle : k ≤ l generalizing k l a b
  · exact (this hparent.symm hb ha (Nat.le_of_not_le hle)).symm
  have hclimb := climb_sub ha hb hle
  cases hn : l - k with
  | zero => rw [hn] at hclimb; exact Option.some.inj hclimb
  | succ n =>
    -- One step above `a` is one step above `b`, from where the climb of `n` steps came to `b`.
    rw [hn, climb, hparent, Option.bind_eq_some_iff] at hclimb
    obtain ⟨p, hp, hpb⟩ := hclimb
    exact absurd (climb_last.mpr ⟨b, hpb, hp⟩) (h p _ n.succ_pos)

/-- Two activities that are in the same place have nothing below them in common. -/
theorem Acyclic.disjoint_preorder (depth : Nat) (hparent : c.parent? a = c.parent? b) (hne : a ≠ b) :
    (c.preorder depth a).Disjoint (c.preorder depth b) := by
  intro j ha hb
  obtain ⟨k, -, hk⟩ := mem_preorder.mp ha
  obtain ⟨l, -, hl⟩ := mem_preorder.mp hb
  exact hne (h.apart hparent hk hl)

theorem Acyclic.nodup_preorder (depth i : Nat) : (c.preorder depth i).Nodup := by
  induction depth generalizing i with
  | zero => exact List.nodup_nil
  | succ depth ih =>
    refine List.nodup_cons.mpr ⟨fun hi => ?_, List.nodup_flatMap.mpr ⟨fun p _ => ih p, ?_⟩⟩
    · obtain ⟨p, hp, hi⟩ := List.mem_flatMap.mp hi
      obtain ⟨k, -, hclimb⟩ := mem_preorder.mp hi
      exact h i _ k.succ_pos (climb_last.mpr ⟨p, hclimb, mem_children.mp hp⟩)
    · exact (List.nodup_range.filter _).imp_of_mem fun ha hb hne =>
        h.disjoint_preorder depth ((mem_children.mp ha).trans (mem_children.mp hb).symm) hne

theorem Acyclic.nodup_order : c.order.Nodup := by
  refine List.nodup_flatMap.mpr ⟨fun p _ => h.nodup_preorder _ p, ?_⟩
  exact (List.nodup_range.filter _).imp_of_mem fun ha hb hne =>
    h.disjoint_preorder _ ((mem_roots.mp ha).2.trans (mem_roots.mp hb).2.symm) hne

/-- No climb has as many steps as there are activities. -/
theorem Acyclic.climb_size (hclosed : c.Closed) (hj : j < c.size) : c.climb c.size j = none := by
  by_contra hsome
  refine hclosed.isCyclic_iff.mp (List.any_eq_true.mpr ⟨j, List.mem_range.mpr hj, ?_⟩) h
  exact Option.isSome_iff_ne_none.mpr hsome

/-- From every activity one comes to an outermost one. -/
theorem Acyclic.exists_root (hclosed : c.Closed) (hj : j < c.size) :
    ∃ k < c.size, ∃ r ∈ c.roots, c.climb k j = some r := by
  obtain ⟨k, hk, r, hclimb, hroot⟩ := exists_last (h.climb_size hclosed hj)
  exact ⟨k, hk, r, mem_roots.mpr ⟨hclosed.climb_lt hj hclimb, hroot⟩, hclimb⟩

/-- The order of a forest has every activity once. -/
theorem Acyclic.order_perm (hclosed : c.Closed) : c.order.Perm (List.range c.size) := by
  refine (List.perm_ext_iff_of_nodup h.nodup_order List.nodup_range).mpr fun j => ?_
  rw [List.mem_range, order, List.mem_flatMap]
  constructor
  · rintro ⟨r, hr, hj⟩
    obtain ⟨k, -, hclimb⟩ := mem_preorder.mp hj
    exact lt_size_of_climb (mem_roots.mp hr).1 hclimb
  · intro hj
    obtain ⟨k, hk, r, hr, hclimb⟩ := h.exists_root hclosed hj
    exact ⟨r, hr, mem_preorder.mpr ⟨k, hk, hclimb⟩⟩

end Acyclic

/-! ### Edges -/

section Edges

variable {ids : List String} {first : List Defect} {es : List Edge} {found : Containment × List Defect}

theorem repeated_eq_nil {ids : List String} : repeated ids = [] ↔ ids.Nodup := by
  have hgo (met ids : List String) : repeated.go met ids = [] ↔ ids.Nodup ∧ ∀ id ∈ ids, id ∉ met := by
    induction ids generalizing met with
    | nil => simp [repeated.go]
    | cons id ids ih =>
      rw [repeated.go, List.nodup_cons, List.forall_mem_cons]
      split
      · rename_i hid
        exact ⟨nofun, fun h => absurd hid h.2.1⟩
      · rename_i hid
        rw [ih]
        constructor
        · rintro ⟨hnodup, hnew⟩
          exact ⟨⟨fun h => hnew id h (.head _), hnodup⟩, hid, fun x hx hmet => hnew x hx (.tail _ hmet)⟩
        · rintro ⟨⟨hnew, hnodup⟩, -, hmet⟩
          exact ⟨hnodup, fun x hx h => (List.mem_cons.mp h).elim (fun e => hnew (e ▸ hx)) (hmet x hx)⟩
  rw [repeated, hgo]
  simp

/-- The places of the two ends of an edge. -/
def Joins (ids : List String) (e : Edge) (i j : Nat) : Prop :=
  ids.idxOf? e.parent = some i ∧ ids.idxOf? e.child = some j

theorem getElem?_of_idxOf? {id : String} (h : ids.idxOf? id = some i) : ids[i]? = some id := by
  obtain ⟨hi, hid, -⟩ := List.idxOf?_eq_some_iff.mp h
  exact List.getElem?_eq_some_iff.mpr ⟨hi, hid⟩

/-- The ends of the edges are activities, and none of these is the child of two edges. -/
structure Branches (ids : List String) (es : List Edge) : Prop where
  ends : ∀ e ∈ es, e.parent ∈ ids ∧ e.child ∈ ids
  children : (es.map (·.child)).Nodup

/-- The containment after some edges, when some defects were known before. -/
structure Built (ids : List String) (first : List Defect) (es : List Edge) (found : Containment × List Defect) :
    Prop where
  size : found.1.size = ids.length
  defects : found.2 = [] ↔ first = [] ∧ Branches ids es
  parent : found.2 = [] → ∀ i j, found.1.parent? j = some i ↔ ∃ e ∈ es, Joins ids e i j

theorem built_nil (ids : List String) (first : List Defect) :
    Built ids first [] (⟨Array.replicate ids.length none⟩, first) := by
  refine ⟨by simp [size], ⟨fun h => ⟨h, nofun, List.nodup_nil⟩, And.left⟩, fun _ i j => ?_⟩
  simp only [parent?, Array.getElem?_replicate]
  split <;> simp

theorem branches_snoc {e : Edge} : Branches ids (es ++ [e]) ↔
    Branches ids es ∧ e.parent ∈ ids ∧ e.child ∈ ids ∧ e.child ∉ es.map (·.child) := by
  constructor
  · rintro ⟨hends, hchildren⟩
    rw [List.map_append, List.map_singleton, List.nodup_append_comm, List.singleton_append,
      List.nodup_cons] at hchildren
    obtain ⟨hes, he⟩ := List.forall_mem_append.mp hends
    exact ⟨⟨hes, hchildren.2⟩, (he e (.head _)).1, (he e (.head _)).2, hchildren.1⟩
  · rintro ⟨⟨hends, hchildren⟩, hparent, hchild, hnew⟩
    refine ⟨List.forall_mem_append.mpr ⟨hends, List.forall_mem_singleton.mpr ⟨hparent, hchild⟩⟩, ?_⟩
    rw [List.map_append, List.map_singleton, List.nodup_append_comm, List.singleton_append, List.nodup_cons]
    exact ⟨hnew, hchildren⟩

/-- An activity has a container as soon as it is the child of an edge. -/
theorem Built.isSome_parent (h : Built ids first es found) (hfound : found.2 = []) {id : String}
    (hid : ids.idxOf? id = some j) : (found.1.parent? j).isSome ↔ id ∈ es.map (·.child) := by
  rw [Option.isSome_iff_exists, List.mem_map]
  constructor
  · rintro ⟨i, hi⟩
    obtain ⟨e, he, -, hchild⟩ := (h.parent hfound i j).mp hi
    exact ⟨e, he, Option.some.inj ((getElem?_of_idxOf? hchild).symm.trans (getElem?_of_idxOf? hid))⟩
  · rintro ⟨e, he, rfl⟩
    obtain ⟨i, hi⟩ := Option.isSome_iff_exists.mp (List.isSome_idxOf?.mpr ((h.defects.mp hfound).2.ends e he).1)
    exact ⟨i, (h.parent hfound i j).mpr ⟨e, he, hi, hid⟩⟩

/-- A defect is noted of an edge that does not belong here. -/
theorem Built.reject (h : Built ids first es found) {e : Edge} (he : found.2 = [] → ¬Branches ids (es ++ [e]))
    (defect : Defect) : Built ids first (es ++ [e]) (found.1, found.2 ++ [defect]) := by
  have hne : found.2 ++ [defect] ≠ [] := by simp
  refine ⟨h.size, iff_of_false hne fun hall => ?_, fun hnil => absurd hnil hne⟩
  exact he (h.defects.mpr ⟨hall.1, (branches_snoc.mp hall.2).1⟩) hall.2

theorem Built.next (h : Built ids first es found) (e : Edge) : Built ids first (es ++ [e]) (addEdge ids found e) := by
  unfold addEdge
  split
  · rename_i p c hp hc
    split
    · rename_i hsecond
      refine h.reject (fun hfound hall => ?_) _
      exact (branches_snoc.mp hall).2.2.2 ((h.isSome_parent hfound hc).mp hsecond)
    · rename_i hfirst
      have hsize : c < found.1.parents.size := by
        obtain ⟨hlt, -⟩ := List.idxOf?_eq_some_iff.mp hc
        exact Nat.lt_of_lt_of_eq hlt h.size.symm
      have hparent (j : Nat) : (⟨found.1.parents.setIfInBounds c (some p)⟩ : Containment).parent? j =
          if c = j then some p else found.1.parent? j := by
        simp only [parent?, Array.getElem?_setIfInBounds, hsize, ↓reduceIte]
        split <;> rfl
      refine ⟨Array.size_setIfInBounds.trans h.size, ?_, fun hfound i j => ?_⟩
      · rw [h.defects, branches_snoc]
        refine ⟨fun hall => ⟨hall.1, hall.2, ?_⟩, fun hall => ⟨hall.1, hall.2.1⟩⟩
        refine ⟨List.isSome_idxOf?.mp (hp ▸ rfl), List.isSome_idxOf?.mp (hc ▸ rfl), fun hin => ?_⟩
        exact hfirst ((h.isSome_parent (h.defects.mpr hall) hc).mpr hin)
      · have hnone : found.1.parent? c = none := Option.not_isSome_iff_eq_none.mp hfirst
        simp only [hparent, List.mem_append, List.mem_singleton, or_and_right, exists_or, exists_eq_left,
          ← h.parent hfound]
        by_cases hj : c = j
        · rw [if_pos hj, ← hj, hnone, Joins, hp, hc]
          simp
        · rw [if_neg hj, Joins, hc]
          simp [hj]
  · rename_i hp
    refine h.reject (fun _ hall => ?_) _
    exact List.idxOf?_eq_none_iff.mp hp (branches_snoc.mp hall).2.1
  · rename_i hc _
    refine h.reject (fun _ hall => ?_) _
    exact List.idxOf?_eq_none_iff.mp hc (branches_snoc.mp hall).2.2.1

theorem built_edges (ids : List String) (first : List Defect) (es : List Edge) :
    Built ids first es (es.foldl (addEdge ids) (⟨Array.replicate ids.length none⟩, first)) := by
  induction es using List.reverseRecOn with
  | nil => exact built_nil ids first
  | append_singleton es e ih =>
    rw [List.foldl_append]
    exact ih.next e

theorem Built.closed (h : Built ids first es found) (hfound : found.2 = []) : found.1.Closed := by
  intro j i hi
  obtain ⟨e, -, hparent, -⟩ := (h.parent hfound i j).mp hi
  obtain ⟨hlt, -⟩ := List.idxOf?_eq_some_iff.mp hparent
  exact Nat.lt_of_lt_of_eq hlt h.size.symm

/-! ### Cycles -/

/-- One activity contains another, directly or through others. -/
def Within (es : List Edge) : String → String → Prop := Relation.TransGen fun p q => ⟨p, q⟩ ∈ es

theorem Built.within_of_climb (h : Built ids first es found) (hfound : found.2 = [])
    (hclimb : found.1.climb (k + 1) j = some i) :
    ∃ p q, ids.idxOf? p = some i ∧ ids.idxOf? q = some j ∧ Within es p q := by
  induction k generalizing j with
  | zero =>
    rw [climb_succ, climb, Option.bind_some] at hclimb
    obtain ⟨e, he, hparent, hchild⟩ := (h.parent hfound i j).mp hclimb
    exact ⟨e.parent, e.child, hparent, hchild, .single he⟩
  | succ k ih =>
    obtain ⟨m, hm, hclimb⟩ := climb_first.mp hclimb
    obtain ⟨e, he, hparent, hchild⟩ := (h.parent hfound m j).mp hm
    obtain ⟨p, q, hp, hq, hpq⟩ := ih hclimb
    obtain rfl : q = e.parent :=
      Option.some.inj ((getElem?_of_idxOf? hq).symm.trans (getElem?_of_idxOf? hparent))
    exact ⟨p, e.child, hp, hchild, hpq.tail he⟩

theorem Built.climb_of_within (h : Built ids first es found) (hfound : found.2 = []) {p q : String}
    (hpq : Within es p q) : ∃ k i j, ids.idxOf? p = some i ∧ ids.idxOf? q = some j ∧
      found.1.climb (k + 1) j = some i := by
  have step {p q : String} (he : ⟨p, q⟩ ∈ es) :
      ∃ i j, ids.idxOf? p = some i ∧ ids.idxOf? q = some j ∧ found.1.parent? j = some i := by
    obtain ⟨hparent, hchild⟩ := (h.defects.mp hfound).2.ends _ he
    obtain ⟨i, hi⟩ := Option.isSome_iff_exists.mp (List.isSome_idxOf?.mpr hparent)
    obtain ⟨j, hj⟩ := Option.isSome_iff_exists.mp (List.isSome_idxOf?.mpr hchild)
    exact ⟨i, j, hi, hj, (h.parent hfound i j).mpr ⟨_, he, hi, hj⟩⟩
  induction hpq with
  | single he =>
    obtain ⟨i, j, hi, hj, hparent⟩ := step he
    exact ⟨0, i, j, hi, hj, (climb_succ _ 0 j).trans hparent⟩
  | tail _ he ih =>
    obtain ⟨k, i, m, hi, hm, hclimb⟩ := ih
    obtain ⟨m', j, hm', hj, hparent⟩ := step he
    obtain rfl : m = m' := Option.some.inj (hm.symm.trans hm')
    exact ⟨k + 1, i, j, hi, hj, climb_first.mpr ⟨m, hparent, hclimb⟩⟩

theorem Built.acyclic_iff (h : Built ids first es found) (hfound : found.2 = []) :
    found.1.Acyclic ↔ ∀ id, ¬Within es id id := by
  constructor
  · intro hacyclic id hid
    obtain ⟨k, i, j, hi, hj, hclimb⟩ := h.climb_of_within hfound hid
    obtain rfl : i = j := Option.some.inj (hi.symm.trans hj)
    exact hacyclic i (k + 1) k.succ_pos hclimb
  · intro hnone i k hk hclimb
    obtain ⟨k, rfl⟩ := Nat.exists_eq_succ_of_ne_zero hk.ne'
    obtain ⟨p, q, hp, hq, hpq⟩ := h.within_of_climb hfound hclimb
    obtain rfl : p = q := Option.some.inj ((getElem?_of_idxOf? hp).symm.trans (getElem?_of_idxOf? hq))
    exact hnone p hpq

end Edges

/-! ### Documents -/

/-- The activities of a document have different ids, and its edges make a forest of them. -/
structure Forest (d : Document) : Prop where
  ids : (d.activities.map (·.id)).Nodup
  branches : Branches (d.activities.map (·.id)) d.edges
  acyclic : ∀ id, ¬Within d.edges id id

/-- The containers are those that the edges of the document name, and none is in itself. -/
structure Of (d : Document) (c : Containment) : Prop where
  size : c.size = d.activities.length
  parent : ∀ i j, c.parent? j = some i ↔ ∃ e ∈ d.edges, Joins (d.activities.map (·.id)) e i j
  acyclic : c.Acyclic

theorem Of.closed {d : Document} (h : Of d c) : c.Closed := by
  intro j i hi
  obtain ⟨e, -, hparent, -⟩ := (h.parent i j).mp hi
  obtain ⟨hlt, -⟩ := List.idxOf?_eq_some_iff.mp hparent
  rwa [h.size, ← List.length_map]

theorem Of.order_perm {d : Document} (h : Of d c) : c.order.Perm (List.range d.activities.length) :=
  h.size ▸ h.acyclic.order_perm h.closed

/-- The containment of a document is found if its edges make a forest. -/
theorem ofDocument_cases (d : Document) : (∃ c, ofDocument d = .ok c ∧ Forest d ∧ Of d c) ∨
    ∃ ds, ofDocument d = .error ds ∧ ¬Forest d ∧ ds ≠ [] := by
  let ids := d.activities.map (·.id)
  let first := (repeated ids).map Defect.duplicateActivity
  let found := d.edges.foldl (addEdge ids) (⟨Array.replicate ids.length none⟩, first)
  have h : Built ids first d.edges found := built_edges ids first d.edges
  have hfirst : first = [] ↔ ids.Nodup := List.map_eq_nil_iff.trans repeated_eq_nil
  have hofDocument : ofDocument d = if found.2.isEmpty then if found.1.isCyclic then .error [.cycle] else .ok found.1
    else .error found.2 := rfl
  rw [hofDocument]
  by_cases hfound : found.2 = []
  · obtain ⟨hnodup, hbranches⟩ := h.defects.mp hfound
    have hclosed := h.closed hfound
    by_cases hcyclic : found.1.isCyclic = true
    · refine .inr ⟨[.cycle], by simp [hfound, hcyclic], fun hforest => ?_, by simp⟩
      exact hclosed.isCyclic_iff.mp hcyclic ((h.acyclic_iff hfound).mpr hforest.acyclic)
    · have hacyclic : found.1.Acyclic := not_not.mp fun hn => hcyclic (hclosed.isCyclic_iff.mpr hn)
      exact .inl ⟨found.1, by simp [hfound, hcyclic], ⟨hfirst.mp hnodup, hbranches, (h.acyclic_iff hfound).mp hacyclic⟩,
        ⟨h.size.trans (List.length_map _), h.parent hfound, hacyclic⟩⟩
  · refine .inr ⟨found.2, by simp [hfound], fun hforest => hfound ?_, hfound⟩
    exact h.defects.mpr ⟨hfirst.mpr hforest.ids, hforest.branches⟩

theorem of_ofDocument {d : Document} (h : ofDocument d = .ok c) : Forest d ∧ Of d c := by
  rcases ofDocument_cases d with ⟨c', hc, hforest, hof⟩ | ⟨ds, hds, -⟩
  · obtain rfl := Except.ok.inj (hc.symm.trans h)
    exact ⟨hforest, hof⟩
  · rw [hds] at h
    cases h

end Containment

end FlowCheck.Workflow
