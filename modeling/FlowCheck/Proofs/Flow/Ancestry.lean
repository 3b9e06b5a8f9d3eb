import FlowCheck.Flow.Language

/-! The types that a type extends, one behind the other. The checker walks along them for two questions: whether a type
    derives from another, and whether it has a field. The walk for the first question starts one step behind the type,
    that for the second at the type itself, and both look at `maxBaseDepth` types. So the last type that a type derives
    from is one that the walk for its fields does not come to. -/

namespace FlowCheck.Flow

variable {table : ExportTable}

/-- The type that stands so many steps behind a type. -/
def Ty.ancestor? (table : ExportTable) : (steps : Nat) → Ty → Option Ty
  | 0, t => some t
  | steps + 1, t => (t.base? table).bind (Ty.ancestor? table steps)

theorem Ty.reaches_iff_ancestor {target : Ty} {steps : Nat} {t : Option Ty} :
    Ty.reaches table target steps t = true ↔ ∃ k < steps, t.bind (Ty.ancestor? table k) = some target := by
  induction steps generalizing t with
  | zero => simp [Ty.reaches]
  | succ steps ih =>
    cases t with
    | none => simp [Ty.reaches]
    | some t =>
      rw [Nat.exists_lt_succ_left, Ty.reaches, Bool.or_eq_true, decide_eq_true_eq, ih]
      simp only [Option.bind_some, Ty.ancestor?, Option.some.injEq]

/-- A type derives from those that stand behind it, up to `maxBaseDepth` steps. -/
theorem Ty.derivesFrom_iff {source target : Ty} :
    source.derivesFrom table target = true ↔ ∃ k < maxBaseDepth, source.ancestor? table (k + 1) = some target :=
  Ty.reaches_iff_ancestor

/-! ### Fields -/

/-- The export of the type itself lists a field of the name. -/
def Ty.declares (table : ExportTable) (field : String) : Ty → Bool
  | .named name _ => (table.lookup name).any fun found => found.2.fields.any (·.name == field)
  | _ => false

theorem Ty.fieldWithin_eq_none_iff {field : String} {steps : Nat} {t : Option Ty} :
    Ty.fieldWithin table field steps t = none ↔
      ∀ k < steps, ∀ s, t.bind (Ty.ancestor? table k) = some s → s.declares table field = false := by
  induction steps generalizing t with
  | zero => simp [Ty.fieldWithin]
  | succ steps ih =>
    rw [Nat.forall_lt_succ_left]
    rcases t with - | ⟨name, args⟩ | - | -
    · simp [Ty.fieldWithin]
    · cases hlookup : table.lookup name with
      | none => simp [Ty.fieldWithin, Ty.ancestor?, Ty.declares, Ty.base?, hlookup]
      | some found =>
        have hown : (Ty.named name args).declares table field = (found.2.fields.find? (·.name == field)).isSome := by
          rw [Ty.declares, hlookup, Option.any_some, Bool.eq_iff_iff, List.any_eq_true, List.find?_isSome]
        cases hfind : found.2.fields.find? (·.name == field) with
        | none =>
          simp only [Ty.fieldWithin, hlookup, hfind, ih, Option.bind_some, Ty.ancestor?, Option.some.injEq]
          rw [hfind] at hown
          exact ⟨fun h => ⟨by rintro _ rfl; exact hown, h⟩, And.right⟩
        | some f =>
          rw [hfind] at hown
          simp [Ty.fieldWithin, hlookup, hfind, Ty.ancestor?, hown]
    · simp [Ty.fieldWithin, Ty.ancestor?, Ty.declares, Ty.base?]
    · simp [Ty.fieldWithin, Ty.ancestor?, Ty.declares, Ty.base?]

/-- A type lacks a field if neither it lists the field nor does a type less than `maxBaseDepth` steps behind it. -/
theorem Ty.field?_eq_none_iff {t : Ty} {field : String} : t.field? table field = none ↔
    ∀ k < maxBaseDepth, ∀ s, t.ancestor? table k = some s → s.declares table field = false :=
  Ty.fieldWithin_eq_none_iff

/-- A field of the target is one that the source does not come to: the target is the very last type behind it, and none
before the target lists a field of the name. -/
structure Ty.Outlies (table : ExportTable) (field : String) (target source : Ty) : Prop where
  last : source.ancestor? table maxBaseDepth = some target
  unlisted : ∀ k < maxBaseDepth, ∀ s, source.ancestor? table k = some s → s.declares table field = false

/-- Taking a member of a value of an exported type is wrong just if the type lacks the field. -/
theorem memberType_noField_iff {name field : String} {args : List Ty} {loc : Location} :
    (∃ d ∈ (memberType table (.named name args) field loc).diagnostics, d.code = "FX1061") ↔
      (Ty.named name args).field? table field = none := by
  unfold memberType
  dsimp only
  cases (Ty.named name args).field? table field with
  | none => exact iff_of_true ⟨_, .head _, rfl⟩ rfl
  | some t => exact iff_of_false (by rintro ⟨d, hd, -⟩; cases hd) nofun

theorem Ty.named_of_derivesFrom {source target : Ty} (h : source.derivesFrom table target = true) :
    ∃ name args, source = .named name args := by
  cases source with
  | named name args => exact ⟨name, args, rfl⟩
  | null | error => cases h

/-- A type has the fields of every type that it derives from, except one that only the last of those lists; so of its
values every member of such a type can be taken, with that exception. -/
theorem field?_of_derivesFrom {source target : Ty} {field : String}
    (hderives : source.derivesFrom table target = true) (hfield : target.declares table field = true) :
    (source.field? table field = none ↔ target.Outlies table field source) ∧
      ∀ loc, (∃ d ∈ (memberType table source field loc).diagnostics, d.code = "FX1061") ↔
        target.Outlies table field source := by
  have hlacks : source.field? table field = none ↔ target.Outlies table field source := by
    rw [Ty.field?_eq_none_iff]
    refine ⟨fun hnone => ⟨?_, hnone⟩, Ty.Outlies.unlisted⟩
    obtain ⟨k, hk, htarget⟩ := Ty.derivesFrom_iff.mp hderives
    by_cases hlast : k + 1 < maxBaseDepth
    · rw [hnone (k + 1) hlast target htarget] at hfield
      cases hfield
    · have hk' : k + 1 = maxBaseDepth := by omega
      rw [← hk', htarget]
  obtain ⟨name, args, rfl⟩ := Ty.named_of_derivesFrom hderives
  exact ⟨hlacks, fun loc => memberType_noField_iff.trans hlacks⟩

/-- The core module and one that exports so many types and one more, of which each extends the next and the last has a
field. -/
def towerTable (height : Nat) : ExportTable :=
  let name (i : Nat) := "M.T" ++ Text.Numeral.text i
  let level (i : Nat) : TypeExport :=
    if i < height then { name := name i, base := name (i + 1) } else { name := name i, fields := [⟨"top", "Core.Int"⟩] }
  exportTable [⟨coreModule 0, "Core", coreExports, .metadata⟩,
    ⟨⟨1, "M", .static, none, none⟩, "M", (List.range (height + 1)).map level, .metadata⟩] []

/-- A type has the field of the type 31 steps behind it. -/
theorem field?_of_derivesFrom_tower :
    (Ty.named "M.T0" []).derivesFrom (towerTable 31) (.named "M.T31" []) = true ∧
      (Ty.named "M.T31" []).declares (towerTable 31) "top" = true ∧
      (Ty.named "M.T0" []).field? (towerTable 31) "top" ≠ none := by
  obtain ⟨hderives, hfield, hlast⟩ : (Ty.named "M.T0" []).derivesFrom (towerTable 31) (.named "M.T31" []) = true ∧
      (Ty.named "M.T31" []).declares (towerTable 31) "top" = true ∧
      (Ty.named "M.T0" []).ancestor? (towerTable 31) maxBaseDepth = none := by decide +kernel
  refine ⟨hderives, hfield, fun hnone => ?_⟩
  have houtlies := ((field?_of_derivesFrom hderives hfield).1.mp hnone).last
  rw [hlast] at houtlies
  cases houtlies

/-- Of a type 32 steps behind another the other can be used as one, but does not have its field: of the two items the
second has an error, and nothing else is wrong with them. -/
theorem field_out_of_reach :
    (Ty.named "M.T0" []).derivesFrom (towerTable 32) (.named "M.T32" []) = true ∧
      (Ty.named "M.T32" []).declares (towerTable 32) "top" = true ∧
      (Ty.named "M.T0" []).field? (towerTable 32) "top" = none ∧
      (check (towerTable 32) (SourceTree.ofText
        "fn up(x: M.T0) -> M.T32 => x; fn get(x: M.T0) -> Core.Int => x.top;")).map (·.code) = ["FX1061"] := by
  decide +kernel

end FlowCheck.Flow
