import FlowCheck.Flow.Language
import FlowCheck.Proofs.Offering
import FlowCheck.Proofs.TypeDescriptor

/-! What the walk over a type finds, and what it leaves out. Each key is found once, and every part of what is found
    is found itself or passed over, because another type with its key was found before. What only a type that is passed
    over has in it is left out, and the modules that own it are not offered to a compilation. -/

namespace FlowCheck

/-! ### Offering -/

theorem Offer.mem_offered_all {provider : ReferenceProvider} {offered ms : List Module} {cache : ReferenceCache}
    {m : Module} : m ∈ (all provider offered cache ms).offered ↔ m ∈ offered ∨ m ∈ ms := by
  unfold all
  induction ms using List.reverseRecOn with
  | nil => simp
  | append_singleton ms n ih =>
    rw [List.foldl_append, List.foldl_cons, List.foldl_nil, next, List.mem_append, List.mem_singleton, ← or_assoc, ← ih]
    split
    · rename_i hn
      exact ⟨.inl, fun h => h.elim id fun h => h ▸ hn⟩
    · rw [List.mem_append, List.mem_singleton]

/-- The use of a type offers the modules that own what is found in it. -/
theorem Assembly.mem_offered_extend {Tree : Type} {provider : ReferenceProvider} {a : Assembly Tree}
    {type : TypeDescriptor} {m : Module} :
    m ∈ (a.extend provider type).offered ↔ m ∈ a.offered ∨ ∃ s ∈ type.reachable, s.owner = m := by
  rw [extend, Offer.mem_offered_all, List.mem_map]

namespace TypeDescriptor

variable {t s u : TypeDescriptor}

/-- A part of the type is not found, because another type with its key is. -/
structure PassesOver (t s : TypeDescriptor) : Prop where
  within : t.Within s
  notMem : s ∉ t.reachable
  met : s.key ∈ t.reachable.map key

/-- What is in a type is found, unless it is in a part that is passed over. -/
theorem reachable_or_passedOver (h : t.Within u) : u ∈ t.reachable ∨ ∃ s, t.PassesOver s ∧ s.Within u := by
  induction h with
  | self =>
    obtain ⟨more, hmore⟩ := reachable_cons t
    exact .inl (hmore ▸ .head more)
  | @part s u hs hpart ih =>
    rcases ih with hfound | ⟨r, hr, hrs⟩
    · by_cases hu : u ∈ t.reachable
      · exact .inl hu
      · exact .inr ⟨u, ⟨.part hs hpart, hu, part_met hfound hpart⟩, .self⟩
    · exact .inr ⟨r, hr, .part hrs hpart⟩

/-- If the keys tell all parts of a type apart, all of them are found. -/
theorem reachable_of_within (hkeys : ∀ s u, t.Within s → t.Within u → s.key = u.key → s = u) (h : t.Within u) :
    u ∈ t.reachable := by
  refine (reachable_or_passedOver h).resolve_right ?_
  rintro ⟨s, hs, -⟩
  obtain ⟨r, hr, hkey⟩ := List.mem_map.mp hs.met
  exact hs.notMem (hkeys r s (within_of_reachable hr) hs.within hkey ▸ hr)

/-- The walk over a type starts with the type, finds parts of it only, and each key once. What it does not find is in a
part that is passed over; so it finds all parts if their keys tell them apart. The modules that own what is found are
those that the use of the type offers. -/
theorem reachable_parts (t : TypeDescriptor) :
    (∃ more, t.reachable = t :: more) ∧ (t.reachable.map key).Nodup ∧ (∀ s ∈ t.reachable, t.Within s) ∧
      (∀ u, t.Within u → u ∈ t.reachable ∨ ∃ s, t.PassesOver s ∧ s.Within u) ∧
      ((∀ s u, t.Within s → t.Within u → s.key = u.key → s = u) → ∀ u, t.Within u → u ∈ t.reachable) ∧
      ∀ (Tree : Type) (provider : ReferenceProvider) (a : Assembly Tree) (m : Module),
        m ∈ (a.extend provider t).offered ↔ m ∈ a.offered ∨ ∃ s ∈ t.reachable, s.owner = m :=
  ⟨reachable_cons t, nodup_reachable t, fun _ => within_of_reachable, fun _ => reachable_or_passedOver,
    fun hkeys _ => reachable_of_within hkeys, fun _ _ _ _ => Assembly.mem_offered_extend⟩

/-- Two modules export a type of one name, and both are arguments of a third. The keys tell them apart by their
owners, and both are found. -/
theorem reachable_parts_twins :
    let core := Flow.coreModule 0
    let left : TypeDescriptor := ⟨"X", "T", ⟨1, "A", .static, none, none⟩, none, []⟩
    let right : TypeDescriptor := ⟨"X", "T", ⟨2, "B", .static, none, none⟩, none, []⟩
    let pair : TypeDescriptor := ⟨"Core", "Pair", core, none, [left, right]⟩
    (∀ s u, pair.Within s → pair.Within u → s.key = u.key → s = u) ∧ pair.Within right ∧ right ∈ pair.reachable := by
  intro core left right pair
  have hparts : ∀ u, pair.Within u → u ∈ [pair, left, right] := by
    intro u hu
    induction hu with
    | self => exact .head _
    | part _ hpart ih =>
      simp only [List.mem_cons, List.not_mem_nil, or_false] at ih
      rcases ih with rfl | rfl | rfl
      · exact List.mem_cons_of_mem _ (by simpa [PartOf, pair] using hpart)
      · simp [PartOf, left] at hpart
      · simp [PartOf, right] at hpart
  have hnodup : ([pair, left, right].map key).Nodup := by decide +kernel
  have hkeys : ∀ s u, pair.Within s → pair.Within u → s.key = u.key → s = u :=
    fun s u hs hu => List.inj_on_of_nodup_map hnodup (hparts s hs) (hparts u hu)
  have hright : pair.Within right := .part .self (.inr (.tail _ (.head _)))
  exact ⟨hkeys, hright, (reachable_parts pair).2.2.2.2.1 hkeys right hright⟩

/-- Two lists have one key, though their elements are of two types; the second is passed over, and the module that owns
its elements is not offered. -/
theorem reachable_incomplete :
    let core := Flow.coreModule 0
    let other : Module := ⟨2, "B", .static, none, none⟩
    let left : TypeDescriptor := ⟨"X", "T", ⟨1, "A", .static, none, none⟩, none, []⟩
    let right : TypeDescriptor := ⟨"X", "T", other, none, []⟩
    let pair : TypeDescriptor :=
      ⟨"Core", "Pair", core, none, [⟨"Core", "List", core, none, [left]⟩, ⟨"Core", "List", core, none, [right]⟩]⟩
    let start : Assembly Flow.SourceTree := .build (.exportTables fun _ => none) .empty [core] []
    pair.Within right ∧ right.key ∉ pair.reachable.map key ∧
      other ∉ (start.extend (.exportTables fun _ => none) pair).offered := by
  intro core other left right pair start
  refine ⟨.part (.part .self (.inr (.tail _ (.head _)))) (.inr (.head _)), ?_, ?_⟩
  · decide +kernel
  · decide +kernel

end TypeDescriptor

end FlowCheck
