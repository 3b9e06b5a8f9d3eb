import FlowCheck.Proofs.Flow.Display
import FlowCheck.Proofs.Flow.Lookup
import FlowCheck.Proofs.Text
import FlowCheck.Proofs.TypeDescriptor
import FlowCheck.Workflow.Types

/-! Types as they are described by what modules export. The owner of a type and its display do not depend on how many
    steps are taken to bases, nor does it whether a text is a type. -/

namespace FlowCheck

namespace TypeDescriptor

variable {name : String} {owner : Module} {base : Option TypeDescriptor} {args : List TypeDescriptor}

@[simp] theorem owner_ofFullName : (ofFullName name owner base args).owner = owner := by
  unfold ofFullName
  split <;> rfl

@[simp] theorem base_ofFullName : (ofFullName name owner base args).base = base := by
  unfold ofFullName
  split <;> rfl

@[simp] theorem args_ofFullName : (ofFullName name owner base args).args = args := by
  unfold ofFullName
  split <;> rfl

theorem fullName_ofFullName_same (owner' : Module) (base' : Option TypeDescriptor) (args' : List TypeDescriptor) :
    (ofFullName name owner base args).fullName = (ofFullName name owner' base' args').fullName := by
  unfold ofFullName
  split <;> rfl

variable (name owner base args) in
/-- The full name of a type is the name that it is given, or lacks the one point that this name starts with. -/
theorem fullName_ofFullName_cases : (ofFullName name owner base args).fullName = name ∨
    name = "." ++ (ofFullName name owner base args).fullName ∧
      '.' ∉ (ofFullName name owner base args).fullName.toList := by
  unfold ofFullName
  split
  · rename_i parts hparts
    obtain ⟨hname, hlast⟩ := Text.cutLast?_spec hparts
    by_cases hns : parts.1 = []
    · rw [hns, List.nil_append] at hname
      refine .inr ⟨String.toList_injective ?_, ?_⟩ <;> simp [fullName, hns, hname, hlast]
    · have hne : String.ofList parts.1 ≠ "" := fun h => hns (by simpa using congrArg String.toList h)
      refine .inl (String.toList_injective ?_)
      simp [fullName, hne, hname]
  · exact .inl (by rw [fullName, if_pos rfl])

/-- Unless a name starts with a point, it is the full name of the type that it is given to. -/
theorem fullName_ofFullName (h : name.toList.head? ≠ some '.') : (ofFullName name owner base args).fullName = name := by
  rcases fullName_ofFullName_cases name owner base args with h' | ⟨h', -⟩
  · exact h'
  · rw [h', String.toList_append] at h
    exact absurd rfl h

end TypeDescriptor

namespace Workflow

open FlowCheck.Flow (TypeExpr)

/-! ### Descriptions -/

variable {table : ExportTable} {base : String → Option TypeDescriptor}

theorem describe_ok {path : String} {tes : List TypeExpr} {loc : Location} {t : TypeDescriptor} :
    describe table base ⟨path, tes, loc⟩ = .ok t ↔ ∃ owner e args, table.lookup path = some (owner, e) ∧
      e.arity = tes.length ∧ describeAll table base tes = .ok args ∧
        t = .ofFullName e.name owner (e.base.bind base) args := by
  simp only [describe]
  cases table.lookup path with
  | none => simp
  | some found =>
    obtain ⟨owner, e⟩ := found
    by_cases harity : e.arity = tes.length
    · cases describeAll table base tes with
      | error => simp [harity]
      | ok args =>
        simp only [harity, ne_eq, not_true_eq_false, ↓reduceIte, Except.ok.injEq, Option.some.injEq, Prod.mk.injEq]
        constructor
        · rintro rfl
          exact ⟨owner, e, args, ⟨rfl, rfl⟩, harity, rfl, rfl⟩
        · rintro ⟨_, _, _, ⟨rfl, rfl⟩, -, rfl, rfl⟩
          rfl
    · simp only [harity, ne_eq, not_false_eq_true, ↓reduceIte, reduceCtorEq, Option.some.injEq, Prod.mk.injEq, false_iff]
      rintro ⟨_, _, _, ⟨rfl, rfl⟩, h, -⟩
      exact harity h

theorem describeAll_cons {te : TypeExpr} {tes : List TypeExpr} {ts : List TypeDescriptor} :
    describeAll table base (te :: tes) = .ok ts ↔ ∃ u us, describe table base te = .ok u ∧
      describeAll table base tes = .ok us ∧ ts = u :: us := by
  simp only [describeAll]
  cases describe table base te with
  | error => simp
  | ok u =>
    cases describeAll table base tes with
    | error => simp
    | ok us => simp [eq_comm]

theorem describeAll_length {tes : List TypeExpr} {ts : List TypeDescriptor} (h : describeAll table base tes = .ok ts) :
    ts.length = tes.length := by
  induction tes generalizing ts with
  | nil => cases h; rfl
  | cons te tes ih =>
    obtain ⟨u, us, -, hus, rfl⟩ := describeAll_cons.mp h
    rw [List.length_cons, List.length_cons, ih hus]

theorem describeAll_mem {tes : List TypeExpr} {ts : List TypeDescriptor} (h : describeAll table base tes = .ok ts)
    {t : TypeDescriptor} (ht : t ∈ ts) : ∃ te ∈ tes, describe table base te = .ok t := by
  induction tes generalizing ts with
  | nil => cases h; cases ht
  | cons te tes ih =>
    obtain ⟨u, us, hu, hus, rfl⟩ := describeAll_cons.mp h
    rcases List.mem_cons.mp ht with rfl | ht
    · exact ⟨te, .head _, hu⟩
    · obtain ⟨te', hte, h⟩ := ih hus ht
      exact ⟨te', .tail _ hte, h⟩

/-- What a path means in the table it means in the other one, up to what it extends and its fields. -/
def Covers (other table : ExportTable) : Prop := ∀ path owner e, table.lookup path = some (owner, e) →
  ∃ e', other.lookup path = some (owner, e') ∧ e'.name = e.name ∧ e'.arity = e.arity

theorem Covers.refl (table : ExportTable) : Covers table table := fun _ _ e h => ⟨e, h, rfl, rfl⟩

variable {other : ExportTable}

mutual
/-- The owner of a type and its display do not depend on the bases, nor does it whether a text is a type. -/
theorem describe_key (hcovers : Covers other table) (base' : String → Option TypeDescriptor) :
    ∀ (te : TypeExpr) {t : TypeDescriptor}, describe table base te = .ok t →
      ∃ t', describe other base' te = .ok t' ∧ t'.key = t.key
  | ⟨path, tes, loc⟩, t, h => by
    obtain ⟨owner, e, args, hlookup, harity, hargs, rfl⟩ := describe_ok.mp h
    obtain ⟨e', hlookup', hname, harity'⟩ := hcovers path owner e hlookup
    obtain ⟨args', hargs', hdisplays⟩ := describeAll_display hcovers base' tes hargs
    refine ⟨_, describe_ok.mpr ⟨owner, e', args', hlookup', harity'.trans harity, hargs', rfl⟩, ?_⟩
    rw [TypeDescriptor.key, TypeDescriptor.key, TypeDescriptor.owner_ofFullName, TypeDescriptor.owner_ofFullName, hname]
    refine congrArg (Prod.mk owner) (TypeDescriptor.display_congr (TypeDescriptor.fullName_ofFullName_same ..) ?_)
    rwa [TypeDescriptor.args_ofFullName, TypeDescriptor.args_ofFullName]
theorem describeAll_display (hcovers : Covers other table) (base' : String → Option TypeDescriptor) :
    ∀ (tes : List TypeExpr) {ts : List TypeDescriptor}, describeAll table base tes = .ok ts →
      ∃ ts', describeAll other base' tes = .ok ts' ∧ ts'.map TypeDescriptor.display = ts.map TypeDescriptor.display
  | [], _, h => ⟨_, h, rfl⟩
  | te :: tes, ts, h => by
    obtain ⟨u, us, hu, hus, rfl⟩ := describeAll_cons.mp h
    obtain ⟨u', hu', hkey⟩ := describe_key hcovers base' te hu
    obtain ⟨us', hus', hdisplays⟩ := describeAll_display hcovers base' tes hus
    refine ⟨u' :: us', describeAll_cons.mpr ⟨u', us', hu', hus', rfl⟩, ?_⟩
    have hdisplay : u'.display = u.display := congrArg Prod.snd hkey
    rw [List.map_cons, List.map_cons, hdisplays, hdisplay]
end

theorem resolve_eq_ok_iff {text : String} {t : TypeDescriptor} : resolve table text = .ok t ↔
    ∃ te, TypeExpr.ofText? text = some te ∧ describe table (base? table maxBaseDepth) te = .ok t := by
  rw [resolve]
  cases TypeExpr.ofText? text <;> simp

/-! ### Bases -/

theorem base?_succ {k : Nat} {text : String} {u : TypeDescriptor} : base? table (k + 1) text = some u ↔
    ∃ te, TypeExpr.ofText? text = some te ∧ describe table (base? table k) te = .ok u := by
  rw [base?, Option.bind_eq_some_iff]
  refine exists_congr fun te => and_congr_right fun _ => ?_
  cases describe table (base? table k) te <;> simp [Except.toOption]

theorem base?_key {k : Nat} {text : String} {u : TypeDescriptor} (h : base? table k text = some u) (k' : Nat) :
    ∃ u', base? table (k' + 1) text = some u' ∧ u'.key = u.key := by
  cases k with
  | zero => cases h
  | succ k =>
    obtain ⟨te, hte, hu⟩ := base?_succ.mp h
    obtain ⟨u', hu', hkey⟩ := describe_key (.refl table) (base? table k') te hu
    exact ⟨u', base?_succ.mpr ⟨te, hte, hu'⟩, hkey⟩

/-! ### Parts -/

/-- The names of all types of the table are paths. -/
def Named (table : ExportTable) : Prop := ∀ entry ∈ table.entries, Flow.IsPath entry.2.name

instance : DecidablePred Named := fun table =>
  inferInstanceAs (Decidable (∀ entry ∈ table.entries, Flow.IsPath entry.2.name))

/-- The type is described, with so many steps to bases, and its display can be read. -/
structure Described (table : ExportTable) (k : Nat) (t : TypeDescriptor) : Prop where
  described : ∃ te, describe table (base? table k) te = .ok t
  spelled : t.Spelled Flow.maxNesting

section Described

variable (hnames : Named table)
include hnames

theorem fullName_named {path : String} {owner : Module} {e : TypeExport} (h : table.lookup path = some (owner, e))
    (base : Option TypeDescriptor) (args : List TypeDescriptor) :
    (TypeDescriptor.ofFullName e.name owner base args).fullName = e.name ∧ Flow.IsPath e.name := by
  have hpath := hnames _ (List.mem_of_find?_eq_some (ExportTable.find?_of_lookup h))
  refine ⟨TypeDescriptor.fullName_ofFullName ?_, hpath⟩
  obtain ⟨c, rest, hc, hstart⟩ := hpath.head
  rw [hc]
  rintro ⟨⟩
  exact absurd hstart (by decide)

open FlowCheck.Flow FlowCheck.Flow.Parser in
/-- The display of a type that was read can be read. -/
theorem spelled_of_reads {room : Nat} {ts rest : List Token} {te : TypeExpr} (h : Reads (typeExpr room) ts te rest)
    {t : TypeDescriptor} (ht : describe table base te = .ok t) : t.Spelled room := by
  induction room generalizing ts rest te t with
  | zero => exact (reads_fail h).elim
  | succ room ih =>
    rw [typeExpr_succ, reads_peek_bind] at h
    obtain ⟨path, _, -, h⟩ := h.of_bind
    obtain ⟨tes, _, hargs, h⟩ := h.of_bind
    obtain ⟨rfl, -⟩ := reads_pure.mp h
    obtain ⟨owner, e, args, hlookup, -, hdescribe, rfl⟩ := describe_ok.mp ht
    obtain ⟨hname, hpath⟩ := fullName_named hnames hlookup (e.base.bind base) args
    rw [← hname] at hpath
    refine ⟨hpath, fun u hu => ?_⟩
    rw [TypeDescriptor.args_ofFullName] at hu
    obtain ⟨te, hte, hu⟩ := describeAll_mem hdescribe hu
    obtain ⟨_, _, -, hread⟩ := reads_of_args hargs te hte
    exact ih hread hu

theorem described_of_text {k : Nat} {text : String} {te : TypeExpr} (hte : TypeExpr.ofText? text = some te)
    {t : TypeDescriptor} (ht : describe table (base? table k) te = .ok t) : Described table k t := by
  obtain ⟨-, w, last, -, -, hreads⟩ := Flow.TypeExpr.ofText?_spec hte
  exact ⟨⟨te, ht⟩, spelled_of_reads hnames hreads ht⟩

theorem resolve_described {text : String} {t : TypeDescriptor} (h : resolve table text = .ok t) :
    Described table maxBaseDepth t := by
  obtain ⟨te, hte, ht⟩ := resolve_eq_ok_iff.mp h
  exact described_of_text hnames hte ht

/-- The table has the name of a type, with its owner, the number of its arguments and the text of its base. -/
theorem Described.found {k : Nat} {t : TypeDescriptor} (h : Described table k t) :
    ∃ e, table.find? t.fullName = some (t.owner, e) ∧ e.name = t.fullName ∧ e.arity = t.args.length ∧
      t.base = e.base.bind (base? table k) := by
  obtain ⟨⟨path, tes, loc⟩, h⟩ := h.described
  obtain ⟨owner, e, args, hlookup, harity, hargs, rfl⟩ := describe_ok.mp h
  obtain ⟨hname, -⟩ := fullName_named hnames hlookup (e.base.bind (base? table k)) args
  rw [hname, TypeDescriptor.owner_ofFullName, TypeDescriptor.args_ofFullName, TypeDescriptor.base_ofFullName]
  exact ⟨e, ExportTable.find?_of_lookup hlookup, rfl, harity.trans (describeAll_length hargs).symm, rfl⟩

theorem Described.part {k : Nat} {t u : TypeDescriptor} (h : Described table k t) (hu : u.PartOf t) :
    ∃ j, Described table j u := by
  rcases hu with hu | hu
  · obtain ⟨e, -, -, -, hbase⟩ := h.found hnames
    obtain ⟨text, -, hu⟩ := Option.bind_eq_some_iff.mp (hbase.symm.trans hu)
    cases k with
    | zero => cases hu
    | succ j =>
      obtain ⟨te, hte, hu⟩ := base?_succ.mp hu
      exact ⟨j, described_of_text hnames hte hu⟩
  · obtain ⟨⟨path, tes, loc⟩, hdescribe⟩ := h.described
    obtain ⟨owner, e, args, -, -, hargs, rfl⟩ := describe_ok.mp hdescribe
    have hspelled := h.spelled.arg hu
    rw [TypeDescriptor.args_ofFullName] at hu
    obtain ⟨te, -, hu⟩ := describeAll_mem hargs hu
    exact ⟨k, ⟨te, hu⟩, hspelled⟩

theorem Described.within {k : Nat} {t s : TypeDescriptor} (h : Described table k t) (hs : t.Within s) :
    ∃ j, Described table j s := by
  induction hs with
  | self => exact ⟨k, h⟩
  | part _ hpart ih =>
    obtain ⟨j, hj⟩ := ih
    exact hj.part hnames hpart

end Described

end Workflow

end FlowCheck
