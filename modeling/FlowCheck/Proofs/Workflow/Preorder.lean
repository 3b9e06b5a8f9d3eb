import FlowCheck.Proofs.Workflow.Containment

/-! The order of the activities of a document. It is the preorder of their forest: right behind each activity stands all
    that it contains, and what is in the same place stands in the order of the document. A traversal with a stack, which
    does not look at what it has met, comes to an end with this order. -/

namespace FlowCheck.Workflow.Containment

variable {c : Containment} {d : Document} {i j p : Nat} {k n : Nat}

/-- An activity is contained in another, directly or through others. -/
def Below (c : Containment) (j i : Nat) : Prop := ∃ k, c.climb (k + 1) j = some i

theorem pairwise_children : (c.children i).Pairwise (· < ·) := List.pairwise_lt_range.filter _

/-! ### Subtrees -/

/-- An activity and all that it contains, in the order in which they are met. -/
def subtree (c : Containment) (i : Nat) : List Nat := c.preorder c.size i

theorem order_eq (c : Containment) : c.order = c.roots.flatMap c.subtree := rfl

theorem filter_subtrees {is : List Nat} {q : Nat → Bool} (hall : ∀ i ∈ is, (c.subtree i).filter q = [i]) :
    (is.flatMap c.subtree).filter q = is := by
  rw [List.filter_flatMap, List.flatMap_congr hall, List.flatMap_singleton']

theorem subtree_infix_flatMap {is : List Nat} (hi : i ∈ is) : c.subtree i <:+: is.flatMap c.subtree := by
  obtain ⟨front, back, rfl⟩ := List.append_of_mem hi
  rw [List.flatMap_append, List.flatMap_cons]
  exact ⟨_, _, List.append_assoc ..⟩

/-- Where nothing is so far below, it makes no difference to go one level deeper. -/
theorem preorder_succ (h : ∀ j, c.climb n j ≠ some i) : c.preorder (n + 1) i = c.preorder n i := by
  induction n generalizing i with
  | zero => exact absurd rfl (h i)
  | succ n ih =>
    have hchildren : ∀ p ∈ c.children i, c.preorder (n + 1) p = c.preorder n p := by
      intro p hp
      exact ih fun j hj => h j (climb_last.mpr ⟨p, hj, mem_children.mp hp⟩)
    rw [preorder, List.flatMap_congr hchildren]
    rfl

section Forest

variable (h : c.Acyclic) (hclosed : c.Closed)
include h hclosed

theorem Acyclic.climb_lt (hi : i < c.size) (hk : c.climb k j = some i) : k < c.size := by
  by_contra hle
  rw [Nat.not_lt] at hle
  have hsome : (c.climb c.size j).isSome := climb_isSome_of_le (by simp [hk]) hle
  rw [h.climb_size hclosed (lt_size_of_climb hi hk)] at hsome
  cases hsome

theorem Acyclic.subtree_eq (hi : i < c.size) : c.subtree i = i :: (c.children i).flatMap c.subtree := by
  have hdeep : ∀ j, c.climb c.size j ≠ some i := fun j hj => Nat.lt_irrefl _ (h.climb_lt hclosed hi hj)
  rw [subtree, ← preorder_succ hdeep]
  rfl

theorem Acyclic.mem_below : j ∈ (c.children i).flatMap c.subtree ↔ c.Below j i := by
  simp only [List.mem_flatMap, mem_children, subtree, mem_preorder]
  constructor
  · rintro ⟨p, hp, k, -, hk⟩
    exact ⟨k, climb_last.mpr ⟨p, hk, hp⟩⟩
  · rintro ⟨k, hk⟩
    obtain ⟨p, hkp, hp⟩ := climb_last.mp hk
    exact ⟨p, hp, k, h.climb_lt hclosed (lt_size_of_parent hp) hkp, hkp⟩

theorem Acyclic.filter_subtree (hi : i < c.size) {q : Nat → Bool} (hq : q i = true)
    (hnone : ∀ j, c.Below j i → q j = false) : (c.subtree i).filter q = [i] := by
  rw [h.subtree_eq hclosed hi, List.filter_cons_of_pos hq, List.filter_eq_nil_iff.mpr]
  intro j hj
  rw [hnone j ((h.mem_below hclosed).mp hj)]
  exact Bool.false_ne_true

/-- All that lies below an activity stands where the activity stands. -/
theorem Acyclic.subtree_infix (hi : i < c.size) (hk : c.climb k j = some i) : c.subtree j <:+: c.subtree i := by
  induction k generalizing i with
  | zero => exact Option.some.inj hk ▸ List.infix_refl _
  | succ k ih =>
    obtain ⟨p, hkp, hp⟩ := climb_last.mp hk
    rw [h.subtree_eq hclosed hi]
    have hbelow : c.subtree p <:+: (c.children i).flatMap c.subtree := subtree_infix_flatMap (mem_children.mpr hp)
    exact (ih (lt_size_of_parent hp) hkp).trans (hbelow.trans (List.suffix_cons _ _).isInfix)

end Forest

/-! ### The order -/

/-- An order in which each activity of a forest is met once: before all that it contains, with nothing else between,
and after those that stand before it in the same place. -/
structure InPreorder (c : Containment) (order : List Nat) : Prop where
  once : order.Perm (List.range c.size)
  roots : (order.filter fun i => (c.parent? i).isNone).Pairwise (· < ·)
  below : ∀ i < c.size, ∃ front below back, order = front ++ i :: (below ++ back) ∧ (∀ j, j ∈ below ↔ c.Below j i) ∧
    (below.filter fun j => c.parent? j == some i).Pairwise (· < ·)

theorem Acyclic.inPreorder (h : c.Acyclic) (hclosed : c.Closed) : c.InPreorder c.order := by
  refine ⟨h.order_perm hclosed, ?_, fun i hi => ?_⟩
  · have hroots : c.order.filter (fun i => (c.parent? i).isNone) = c.roots := by
      rw [order_eq]
      refine filter_subtrees fun r hr => ?_
      obtain ⟨hlt, hparent⟩ := mem_roots.mp hr
      refine h.filter_subtree hclosed hlt (by simp [hparent]) ?_
      rintro j ⟨k, hk⟩
      obtain ⟨p, hp, -⟩ := climb_first.mp hk
      simp [hp]
    rw [hroots]
    exact List.pairwise_lt_range.filter _
  · obtain ⟨k, -, r, hr, hk⟩ := h.exists_root hclosed hi
    have hinfix : c.subtree i <:+: c.order :=
      (h.subtree_infix hclosed (mem_roots.mp hr).1 hk).trans (subtree_infix_flatMap hr)
    obtain ⟨front, back, horder⟩ := hinfix
    rw [h.subtree_eq hclosed hi] at horder
    refine ⟨front, _, back, by simpa using horder.symm, fun j => h.mem_below hclosed, ?_⟩
    have hchildren : ((c.children i).flatMap c.subtree).filter (fun j => c.parent? j == some i) = c.children i := by
      refine filter_subtrees fun p hp => ?_
      have hparent := mem_children.mp hp
      refine h.filter_subtree hclosed (lt_size_of_parent hparent) (by simp [hparent]) ?_
      -- What is below a child and itself a child of `i` would take the way from `i` round to `i`.
      rintro j ⟨k, hk⟩
      refine beq_eq_false_iff_ne.mpr fun hj => ?_
      obtain ⟨i', hi', hk⟩ := climb_first.mp hk
      obtain rfl := Option.some.inj (hj.symm.trans hi')
      exact h i _ k.succ_pos (climb_last.mpr ⟨p, hk, hparent⟩)
    rw [hchildren]
    exact pairwise_children

/-- What contains an activity is met before it. -/
theorem InPreorder.parent_before {order front back : List Nat} (h : c.InPreorder order) (hclosed : c.Closed)
    (horder : order = front ++ j :: back) (hp : c.parent? j = some p) : p ∈ front := by
  obtain ⟨front', below, back', hsplit, hbelow, -⟩ := h.below p (hclosed j p hp)
  obtain ⟨before, after, rfl⟩ := List.append_of_mem ((hbelow j).mpr ⟨0, climb_first.mpr ⟨p, hp, rfl⟩⟩)
  have hnodup : order.Nodup := h.once.nodup_iff.mpr List.nodup_range
  have hsame : front ++ j :: back = (front' ++ p :: before) ++ j :: (after ++ back') := by
    rw [← horder, hsplit]
    simp
  obtain ⟨hfront, hback⟩ := not_or.mp (mt List.mem_append.mpr
    (List.nodup_cons.mp (List.nodup_middle.mp (horder ▸ hnodup))).1)
  obtain ⟨rfl, -⟩ := (List.append_cons_inj_of_notMem hfront hback).mp hsame
  exact List.mem_append_right _ (.head _)

/-! ### A traversal with a stack -/

/-- A traversal with a stack comes to an end, having met some activities: the activity on top is met, and those that it
contains take its place, the first of them on top. -/
inductive Traversal (c : Containment) : (stack met : List Nat) → Prop where
  | done : Traversal c [] []
  | next {i : Nat} {stack met : List Nat} (h : Traversal c (c.children i ++ stack) met) :
      Traversal c (i :: stack) (i :: met)

theorem Acyclic.traversal (h : c.Acyclic) (hclosed : c.Closed) {stack : List Nat} (hstack : ∀ i ∈ stack, i < c.size) :
    c.Traversal stack (stack.flatMap c.subtree) := by
  generalize hn : (stack.flatMap c.subtree).length = n
  induction n generalizing stack with
  | zero =>
    cases stack with
    | nil => exact .done
    | cons i stack =>
      rw [List.flatMap_cons, h.subtree_eq hclosed (hstack i (.head _))] at hn
      cases hn
  | succ n ih =>
    cases stack with
    | nil => cases hn
    | cons i stack =>
      obtain ⟨hi, hrest⟩ := List.forall_mem_cons.mp hstack
      have hflat : (i :: stack).flatMap c.subtree = i :: (c.children i ++ stack).flatMap c.subtree := by
        rw [List.flatMap_cons, h.subtree_eq hclosed hi, List.flatMap_append, List.cons_append]
      rw [hflat, List.length_cons, Nat.succ_inj] at hn
      rw [hflat]
      refine .next (ih (List.forall_mem_append.mpr ⟨fun p hp => ?_, hrest⟩) hn)
      exact lt_size_of_parent (mem_children.mp hp)

/-! ### Documents -/

/-- Two activities, by their places, of which the first contains the second by an edge. -/
theorem joins_iff {ids : List String} (hids : ids.Nodup) {e : Edge} :
    Joins ids e i j ↔ ids[i]? = some e.parent ∧ ids[j]? = some e.child := by
  have hplace {id : String} {i : Nat} : ids.idxOf? id = some i ↔ ids[i]? = some id := by
    refine ⟨getElem?_of_idxOf?, fun hid => ?_⟩
    obtain ⟨l, hl⟩ := Option.isSome_iff_exists.mp (List.isSome_idxOf?.mpr (List.mem_of_getElem? hid))
    have hlt : l < ids.length := (List.getElem?_eq_some_iff.mp (getElem?_of_idxOf? hl)).1
    rw [hl, (List.getElem?_inj hlt hids).mp ((getElem?_of_idxOf? hl).trans hid.symm)]
  rw [Joins, hplace, hplace]

theorem Forest.perm {es : List Edge} (h : Forest d) (hes : es.Perm d.edges) : Forest { d with edges := es } := by
  obtain ⟨hids, hbranches, hacyclic⟩ := h
  have hwithin : Within es = Within d.edges := by
    unfold Within
    simp only [hes.mem_iff]
  refine ⟨hids, ⟨fun e he => hbranches.ends e (hes.mem_iff.mp he), ?_⟩, ?_⟩
  · exact (hes.map _).nodup_iff.mpr hbranches.children
  · rw [hwithin]
    exact hacyclic

/-- The containment does not depend on the order of the edges. -/
theorem ofDocument_perm (h : ofDocument d = .ok c) {es : List Edge} (hes : es.Perm d.edges) :
    ofDocument { d with edges := es } = .ok c := by
  obtain ⟨hforest, hof⟩ := of_ofDocument h
  rcases ofDocument_cases { d with edges := es } with ⟨c', hc', -, hof'⟩ | ⟨ds, -, hnone, -⟩
  · have hparent (j : Nat) : c'.parent? j = c.parent? j := by
      refine Option.ext fun i => ?_
      rw [hof'.parent, hof.parent]
      simp only [hes.mem_iff]
    have hsame : c' = c := by
      obtain ⟨parents⟩ := c
      obtain ⟨parents'⟩ := c'
      refine congrArg mk (Array.ext (hof'.size.trans hof.size.symm) fun j hj hj' => ?_)
      simpa [parent?, hj, hj'] using hparent j
    rw [hc', hsame]
  · exact absurd (hforest.perm hes) hnone

/-- Of a document whose edges make a forest, a traversal with a stack comes to an end, and has then met all activities
in preorder. What contains an activity, and what it contains, is what the edges say, in whatever order they are
written. -/
theorem order_inPreorder (h : ofDocument d = .ok c) :
    c.size = d.activities.length ∧ c.Traversal c.roots c.order ∧ c.InPreorder c.order ∧
    (∀ i j, c.parent? j = some i ↔ ∃ e ∈ d.edges, (d.activities[i]?).map (·.id) = some e.parent ∧
      (d.activities[j]?).map (·.id) = some e.child) ∧
    (∀ i, (c.children i).Pairwise (· < ·) ∧ ∀ j, j ∈ c.children i ↔ c.parent? j = some i) ∧
    ∀ es, es.Perm d.edges → ofDocument { d with edges := es } = .ok c := by
  obtain ⟨hforest, hof⟩ := of_ofDocument h
  have hroots : ∀ i ∈ c.roots, i < c.size := fun i hi => (mem_roots.mp hi).1
  refine ⟨hof.size, hof.acyclic.traversal hof.closed hroots, hof.acyclic.inPreorder hof.closed, fun i j => ?_,
    fun i => ⟨pairwise_children, fun j => mem_children⟩, fun es => ofDocument_perm h⟩
  simp only [hof.parent, joins_iff hforest.ids, List.getElem?_map]

/-- Edges that are written from the inside out, and activities that stand before what contains them. -/
theorem order_inPreorder_inner :
    let spec (id : String) : ActivitySpec := ⟨id, none, [], []⟩
    let d : Document := ⟨"w", none, [], ⟨[], []⟩, [spec "inner", spec "last", spec "outer", spec "first"],
      [⟨"last", "inner"⟩, ⟨"outer", "first"⟩, ⟨"outer", "last"⟩]⟩
    ∃ c, ofDocument d = .ok c ∧ c.InPreorder [2, 1, 0, 3] := by
  intro spec d
  have horder : (ofDocument d).toOption.map order = some [2, 1, 0, 3] := by decide
  obtain ⟨c, hc, horder⟩ := Option.map_eq_some_iff.mp horder
  have h : ofDocument d = .ok c := by
    cases hd : ofDocument d with
    | error => rw [hd] at hc; cases hc
    | ok => rw [hd] at hc; cases hc; rfl
  exact ⟨c, h, horder ▸ (order_inPreorder h).2.2.1⟩

end FlowCheck.Workflow.Containment
