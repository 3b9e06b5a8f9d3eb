import Mathlib.Data.List.Forall2
import FlowCheck.Json.Exports
import FlowCheck.Proofs.Json.Reading

/-! What is written as a record is decoded again: the decoder of each part is asked for the written form of that part
    only, so that a part may have a written form under a condition (a number below its bound). Conversely, what a
    decoder gives keeps the condition. -/

namespace FlowCheck.Json

variable {α : Type} {encode : α → Value} {decode : Value → Option α}

/-- The written form of `a` can be read and is decoded to `a`. -/
structure Coded (encode : α → Value) (decode : Value → Option α) (a : α) : Prop where
  readable : Readable (encode a)
  decoded : decode (encode a) = some a

theorem Coded.text (s : String) : Coded .text string? s := ⟨readable_text s, rfl⟩

theorem Coded.nat {n bound : Nat} (h : n < bound) : Coded .nat (natBelow? bound) n :=
  ⟨readable_nat n, Text.Numeral.read?_digits h⟩

theorem natBelow?_lt {bound n : Nat} {v : Value} (h : natBelow? bound v = some n) : n < bound := by
  unfold natBelow? Text.Numeral.read? at h
  split at h
  · split at h
    · rename_i hlt
      rw [Bool.and_eq_true, decide_eq_true_eq] at hlt
      exact Option.some.inj h ▸ hlt.2
    · cases h
  · cases h

/-! ### Lists -/

theorem mapM_eq_some_iff {vs : List Value} {xs : List α} :
    vs.mapM decode = some xs ↔ List.Forall₂ (fun v x => decode v = some x) vs xs := by
  induction vs generalizing xs with
  | nil => cases xs <;> simp
  | cons v vs ih =>
    rw [List.mapM_cons, Option.bind_eq_bind, Option.bind_eq_some_iff]
    constructor
    · rintro ⟨x, hx, h⟩
      obtain ⟨ys, hys, h⟩ := Option.bind_eq_some_iff.mp h
      cases h
      exact .cons hx (ih.mp hys)
    · rintro (_ | ⟨hx, h⟩)
      refine ⟨_, hx, ?_⟩
      rw [ih.mpr h]
      rfl

theorem Coded.list {xs : List α} (h : ∀ x ∈ xs, Coded encode decode x) :
    Coded (.list encode) (list? decode) xs where
  readable := by
    refine readable_array fun v hv => ?_
    obtain ⟨x, hx, rfl⟩ := List.mem_map.mp hv
    exact (h x hx).readable
  decoded := by
    refine mapM_eq_some_iff.mpr (List.forall₂_map_left_iff.mpr (List.forall₂_same.mpr fun x hx => ?_))
    exact (h x hx).decoded

theorem of_list? {v : Value} {xs : List α} (h : list? decode v = some xs) {x : α} (hx : x ∈ xs) :
    ∃ w, decode w = some x := by
  unfold list? at h
  split at h
  · have hall := mapM_eq_some_iff.mp h
    obtain ⟨i, hi, rfl⟩ := List.getElem_of_mem hx
    exact ⟨_, hall.get (hall.length_eq.symm ▸ hi) hi⟩
  · cases h

/-! ### Fields -/

theorem valuesOf_of_notMem {name : String} {ms : List (String × Value)} (h : name ∉ ms.map (·.1)) :
    valuesOf name (ms.map fun m => (some m.1, m.2)) = [] := by
  rw [valuesOf, List.map_eq_nil_iff, List.filter_eq_nil_iff]
  intro m hm e
  obtain ⟨n, hn, rfl⟩ := List.mem_map.mp hm
  exact h (List.mem_map.mpr ⟨n, hn, Option.some.inj (beq_iff_eq.mp e)⟩)

theorem valuesOf_of_mem {ms : List (String × Value)} (h : (ms.map (·.1)).Nodup) {m : String × Value}
    (hm : m ∈ ms) : valuesOf m.1 (ms.map fun m => (some m.1, m.2)) = [m.2] := by
  induction ms with
  | nil => cases hm
  | cons n ms ih =>
    obtain ⟨hn, hnodup⟩ := List.nodup_cons.mp h
    rcases List.mem_cons.mp hm with rfl | hm
    · have hrest := valuesOf_of_notMem hn
      rw [valuesOf] at hrest ⊢
      simp [hrest]
    · have hne : n.1 ≠ m.1 := fun e => hn (List.mem_map.mpr ⟨m, hm, e.symm⟩)
      have hrest := ih hnodup hm
      rw [valuesOf] at hrest ⊢
      simp [hne, hrest]

/-- The fields of a written record are found as they were written. -/
theorem fields?_record (ms : List (String × Value)) (h : (ms.map (·.1)).Nodup) :
    fields? (ms.map (·.1)) (.record ms) = some (ms.map fun m => some m.2) := by
  have hkeys : ((ms.map fun m => (some m.1, m.2)).all (·.1.isSome)) = true := by simp
  have hsingle : ((ms.map (·.1)).all fun name =>
      (valuesOf name (ms.map fun m => (some m.1, m.2))).length ≤ 1) = true := by
    rw [List.all_eq_true]
    intro name hname
    obtain ⟨m, hm, rfl⟩ := List.mem_map.mp hname
    rw [valuesOf_of_mem h hm]
    rfl
  rw [Value.record, fields?, hkeys, hsingle, Bool.and_self, if_pos rfl, List.map_map]
  refine congrArg some (List.map_congr_left fun m hm => ?_)
  rw [Function.comp_apply, valuesOf_of_mem h hm]
  rfl

theorem Readable.option {a : Option α} (h : ∀ x ∈ a, Coded encode decode x) : Readable (.option encode a) := by
  cases a with
  | none => exact readable_null
  | some x => exact (h x rfl).readable

/-- What is never decoded from `null` may be missing. -/
theorem optional_option (hnull : decode .null = none) {a : Option α} (h : ∀ x ∈ a, Coded encode decode x) :
    optional decode (some (.option encode a)) = some a := by
  cases a with
  | none => rfl
  | some x =>
    have hx := (h x rfl).decoded
    rw [Value.option, optional, hx, Option.map_some]
    intro hv
    rw [hv, hnull] at hx
    cases hx

theorem of_optional {f : Option Value} {a : Option α} (h : optional decode f = some a) {x : α} (hx : x ∈ a) :
    ∃ v, decode v = some x := by
  unfold optional at h
  split at h
  · cases h; cases hx
  · obtain ⟨y, hy, rfl⟩ := Option.map_eq_some_iff.mp h
    cases hx
    exact ⟨_, hy⟩
  · cases h; cases hx

theorem of_withDefault {absent a : α} {f : Option Value} (h : withDefault absent decode f = some a) :
    a = absent ∨ ∃ v, decode v = some a := by
  cases f with
  | none => exact .inl (Option.some.inj h).symm
  | some v => exact .inr ⟨v, h⟩

/-! ### Words -/

theorem Coded.word {words : List (String × α)} {word : α → String} {a : α} (h : words.lookup (word a) = some a) :
    Coded (fun a => .text (word a)) (word? words) a := ⟨readable_text _, h⟩

/-! ### Exported types -/

theorem coded_fieldExport (f : FieldExport) : Coded ofFieldExport fieldExport? f where
  readable := readable_record (by simp [readable_text])
  decoded := by
    have hfields : fields? ["name", "type"] (ofFieldExport f) = some [some (.text f.name), some (.text f.typeName)] :=
      fields?_record [_, _] (by simp)
    rw [fieldExport?, hfields]
    rfl

theorem coded_typeExport {e : TypeExport} (h : e.arity < arityLimit) : Coded ofTypeExport typeExport? e := by
  have hbase : ∀ s ∈ e.base, Coded .text string? s := fun s _ => .text s
  have hfieldList := Coded.list fun f (_ : f ∈ e.fields) => coded_fieldExport f
  refine ⟨readable_record ?_, ?_⟩
  · simp [readable_text, readable_nat, Readable.option hbase, hfieldList.readable]
  · have hfields : fields? ["name", "arity", "base", "fields"] (ofTypeExport e) =
        some [some (.text e.name), some (.nat e.arity), some (.option .text e.base),
          some (.list ofFieldExport e.fields)] := fields?_record [_, _, _, _] (by simp)
    rw [typeExport?, hfields]
    simp [required, withDefault, (Coded.text e.name).decoded, (Coded.nat h).decoded, optional_option rfl hbase,
      hfieldList.decoded]

/-- The number of type arguments of a decoded type is a word. -/
theorem arity_of_typeExport? {v : Value} {e : TypeExport} (h : typeExport? v = some e) : e.arity < arityLimit := by
  unfold typeExport? at h
  split at h
  · obtain ⟨_, -, h⟩ := Option.bind_eq_some_iff.mp h
    obtain ⟨arity, harity, h⟩ := Option.bind_eq_some_iff.mp h
    obtain ⟨_, -, h⟩ := Option.bind_eq_some_iff.mp h
    obtain ⟨_, -, h⟩ := Option.bind_eq_some_iff.mp h
    cases h
    rcases of_withDefault harity with rfl | ⟨_, hv⟩
    · exact Nat.two_pow_pos 64
    · exact natBelow?_lt hv
  · cases h

end FlowCheck.Json
