import FlowCheck.Proofs.Offering

/-! What a cache keeps, and what it asks for. The provider may answer each call in another way. A static module keeps
    the first reference that a call gave for it; about any other module the provider is asked anew. -/

namespace FlowCheck.ReferenceCache

/-! ### One call -/

/-- What comes of asking the provider for a module: the reference, and the questions. The file is looked at only when
the module does not carry what is needed. -/
inductive Asked (provider : ReferenceProvider) (m : Module) : Option Reference → List Request → Prop where
  | carried {r} : provider.fromMetadata m = .ok r → Asked provider m (some r) [⟨m, .metadata⟩]
  | read {fault r} : provider.fromMetadata m = .error fault → provider.fromFile m = .ok r →
    Asked provider m (some r) [⟨m, .metadata⟩, ⟨m, .file⟩]
  | failed {fault fault'} : provider.fromMetadata m = .error fault → provider.fromFile m = .error fault' →
    Asked provider m none [⟨m, .metadata⟩, ⟨m, .file⟩]

/-- What a call for a module can come to: the reference that is given, and the cache afterwards. -/
inductive Serves (provider : ReferenceProvider) (cache : ReferenceCache) (m : Module) :
    Option Reference → ReferenceCache → Prop where
  | kept {r} : cache.find? m = some r → Serves provider cache m (some r) cache
  | passed {got asked} : cache.find? m = none → Asked provider m got asked → got = none ∨ m.isCacheable = false →
    Serves provider cache m got { cache with requests := cache.requests ++ asked }
  | stored {r asked} : cache.find? m = none → Asked provider m (some r) asked → m.isCacheable = true →
    Serves provider cache m (some r) ⟨cache.entries ++ [(m, r)], cache.requests ++ asked⟩

variable {cache next : ReferenceCache} {m : Module} {r : Reference} {got : Option Reference}

section Call

variable (provider : ReferenceProvider)

theorem asked_produce (m : Module) : Asked provider m (produce provider m).1 (produce provider m).2 := by
  unfold produce
  cases hmetadata : provider.fromMetadata m with
  | ok r => exact .carried hmetadata
  | error fault =>
    dsimp only
    cases hfile : provider.fromFile m with
    | ok r => exact .read hmetadata hfile
    | error fault' => exact .failed hmetadata hfile

theorem serves_getOrCreate (cache : ReferenceCache) (m : Module) :
    Serves provider cache m (cache.getOrCreate provider m).1 (cache.getOrCreate provider m).2 := by
  have hasked := asked_produce provider m
  unfold getOrCreate
  cases hfind : cache.find? m with
  | some r => exact .kept hfind
  | none =>
    dsimp only
    cases hproduce : (produce provider m).1 with
    | none =>
      rw [hproduce] at hasked
      exact .passed hfind hasked (.inl rfl)
    | some r =>
      rw [hproduce] at hasked
      dsimp only
      split
      · exact .stored hfind hasked ‹_›
      · exact .passed hfind hasked (.inr (Bool.not_eq_true _ ▸ ‹_›))

/-- Nothing is asked for a module that is kept. -/
theorem getOrCreate_kept (h : cache.find? m = some r) : cache.getOrCreate provider m = (some r, cache) := by
  rw [getOrCreate, h]

end Call

variable {provider : ReferenceProvider}

theorem find?_eq_none : cache.find? m = none ↔ m ∉ cache.entries.map (·.1) := by
  rw [find?, List.lookup_eq_none_iff]
  simp only [List.mem_map, not_exists, not_and, Prod.forall]
  grind

namespace Serves

/-- A call changes what is kept for its own module at most: if this is static, what is given is kept. -/
theorem find? (h : Serves provider cache m got next) (m' : Module) :
    next.find? m' = if m' = m ∧ m.isCacheable = true then got else cache.find? m' := by
  cases h with
  | kept hfind =>
    split
    · rename_i h
      rw [h.1, hfind]
    · rfl
  | passed hfind _ hnone =>
    show cache.find? m' = _
    split
    · rename_i h
      rw [h.1, hfind, hnone.resolve_right (by simp [h.2])]
    · rfl
  | @stored r asked hfind _ hstatic =>
    have hnone : cache.entries.lookup m = none := hfind
    rw [ReferenceCache.find?, List.lookup_append]
    by_cases hm' : m' = m
    · rw [if_pos ⟨hm', hstatic⟩, hm', hnone, Option.none_or, List.lookup_cons_self]
    · rw [if_neg fun h => hm' h.1, List.lookup_cons, beq_false_of_ne hm']
      exact Option.or_none

/-- No module is kept twice. -/
theorem nodup (h : Serves provider cache m got next) (hnodup : (cache.entries.map (·.1)).Nodup) :
    (next.entries.map (·.1)).Nodup := by
  cases h with
  | kept | passed => exact hnodup
  | stored hfind =>
    rw [List.map_append]
    exact List.concat_eq_append ▸ List.Nodup.concat (find?_eq_none.mp hfind) hnodup

/-- The provider is asked for a module that is not kept. What is kept changes only if the module is static and its
reference is had. -/
theorem asked (h : Serves provider cache m got next) (hfind : cache.find? m = none) :
    (∃ asked, Asked provider m got asked ∧ next.requests = cache.requests ++ asked) ∧
      (got = none ∨ m.isCacheable = false → next.entries = cache.entries) := by
  cases h with
  | kept hkept => cases hfind.symm.trans hkept
  | passed _ hasked => exact ⟨⟨_, hasked, rfl⟩, fun _ => rfl⟩
  | stored _ hasked hstatic =>
    exact ⟨⟨_, hasked, rfl⟩, fun hnot => absurd (hstatic.symm.trans (hnot.resolve_left nofun)) (by decide)⟩

end Serves

/-! ### Many calls -/

/-- A call for the reference to a module, and the provider as it is at that time. -/
structure Call where
  provider : ReferenceProvider
  module : Module

/-- The cache after some calls on a new one. -/
def ofCalls (calls : List Call) : ReferenceCache :=
  calls.foldl (fun cache call => (cache.getOrCreate call.provider call.module).2) .empty

/-- One of the calls was for the module, and gave this reference. -/
def Gave (calls : List Call) (m : Module) (r : Reference) : Prop :=
  ∃ front provider back, calls = front ++ ⟨provider, m⟩ :: back ∧ ((ofCalls front).getOrCreate provider m).1 = some r

/-- The module is static, and one of the calls gave a reference for it. -/
def Kept (calls : List Call) (m : Module) : Prop := m.kind = .static ∧ ∃ r, Gave calls m r

section Calls

variable {calls : List Call}

theorem isCacheable_iff : m.isCacheable = true ↔ m.kind = .static := beq_iff_eq

theorem ofCalls_snoc (calls : List Call) (call : Call) :
    ofCalls (calls ++ [call]) = ((ofCalls calls).getOrCreate call.provider call.module).2 := List.foldl_append

theorem gave_snoc {call : Call} : Gave (calls ++ [call]) m r ↔ Gave calls m r ∨
    m = call.module ∧ ((ofCalls calls).getOrCreate call.provider call.module).1 = some r := by
  constructor
  · rintro ⟨front, provider, back, hcalls, hgot⟩
    rcases List.eq_nil_or_concat back with rfl | ⟨back, last, rfl⟩
    · obtain ⟨rfl, hcall⟩ := List.append_inj' hcalls rfl
      obtain rfl := List.singleton_inj.mp hcall
      exact .inr ⟨rfl, hgot⟩
    · rw [List.concat_eq_append, ← List.cons_append, ← List.append_assoc] at hcalls
      exact .inl ⟨front, provider, back, (List.append_inj' hcalls rfl).1, hgot⟩
  · rintro (⟨front, provider, back, rfl, hgot⟩ | ⟨rfl, hgot⟩)
    · exact ⟨front, provider, back ++ [call], by simp, hgot⟩
    · exact ⟨calls, call.provider, [], rfl, hgot⟩

/-- What is kept for a static module is what some call gave for it; for other modules nothing is kept. -/
theorem find?_ofCalls : (ofCalls calls).find? m = some r ↔ m.isCacheable = true ∧ Gave calls m r := by
  induction calls using List.reverseRecOn generalizing m r with
  | nil =>
    refine ⟨nofun, ?_⟩
    rintro ⟨-, front, provider, back, hcalls, -⟩
    exact absurd hcalls.symm (by simp)
  | append_singleton calls call ih =>
    rw [ofCalls_snoc, (serves_getOrCreate call.provider (ofCalls calls) call.module).find?, gave_snoc]
    split
    · rename_i h
      obtain ⟨rfl, hstatic⟩ := h
      refine ⟨fun hgot => ⟨hstatic, .inr ⟨rfl, hgot⟩⟩, ?_⟩
      rintro ⟨-, hgave | ⟨-, hgot⟩⟩
      · rw [getOrCreate_kept _ (ih.mpr ⟨hstatic, hgave⟩)]
      · exact hgot
    · rename_i h
      rw [ih]
      exact ⟨fun hkept => ⟨hkept.1, .inl hkept.2⟩, fun hkept =>
        ⟨hkept.1, hkept.2.resolve_right fun hcall => h ⟨hcall.1, hcall.1 ▸ hkept.1⟩⟩⟩

theorem contains_ofCalls : (ofCalls calls).contains m = true ↔ Kept calls m := by
  simp only [contains, Option.isSome_iff_exists, find?_ofCalls, Kept, isCacheable_iff, exists_and_left]

theorem nodup_ofCalls (calls : List Call) : ((ofCalls calls).entries.map (·.1)).Nodup := by
  induction calls using List.reverseRecOn with
  | nil => exact List.nodup_nil
  | append_singleton calls call ih => exact ofCalls_snoc calls call ▸ (serves_getOrCreate ..).nodup ih

end Calls

/-- After any calls, something is kept for the static modules for which a call gave a reference, and for no others. A
static module is given the reference that a call gave for it, and nothing is asked or changed. For any other module the
provider is asked for what the module carries, once, and for its file, once, just if the first fails; the first
reference that can be had is given. If there is none, or the module is not static, what is kept stays as it is. -/
theorem ofCalls_determined (calls : List Call) :
    let cache := ofCalls calls
    (∀ m, cache.contains m = true ↔ Kept calls m) ∧
      (∃ ms : List Module, ms.Nodup ∧ (∀ m, m ∈ ms ↔ Kept calls m) ∧ cache.size = ms.length) ∧
      (∀ provider m r, m.kind = .static → Gave calls m r → cache.getOrCreate provider m = (some r, cache)) ∧
      ∀ provider m, ¬Kept calls m →
        let (got, next) := cache.getOrCreate provider m
        (∃ asked, Asked provider m got asked ∧ next.requests = cache.requests ++ asked) ∧
          (got = none ∨ m.kind ≠ .static → next.entries = cache.entries) := by
  intro cache
  refine ⟨fun _ => contains_ofCalls, ⟨cache.entries.map (·.1), nodup_ofCalls calls, fun m => ?_, ?_⟩, ?_, ?_⟩
  · rw [← contains_ofCalls, contains, Option.isSome_iff_ne_none, ne_eq, find?_eq_none, not_not]
  · rw [size, List.length_map]
  · intro provider m r hstatic hgave
    exact getOrCreate_kept provider (find?_ofCalls.mpr ⟨isCacheable_iff.mpr hstatic, hgave⟩)
  · intro provider m hkept
    have hfind : cache.find? m = none := by
      rwa [← contains_ofCalls, contains, Option.not_isSome_iff_eq_none] at hkept
    obtain ⟨hasked, hsame⟩ := (serves_getOrCreate provider cache m).asked hfind
    refine ⟨hasked, fun hnot => hsame (hnot.imp_right fun hstatic => ?_)⟩
    rwa [← Bool.not_eq_true, isCacheable_iff]

/-- A provider that fails, then has a reference, then has another: a static module keeps the first that was had. -/
theorem ofCalls_determined_recovering :
    let m : Module := ⟨1, "Orders", .static, none, none⟩
    let fault : Except Fault Reference := .error (.noReference "Orders" .metadata)
    let first : Reference := ⟨m, "Orders", [{ name := "Orders.Order" }], .file⟩
    let calls : List Call := [⟨⟨fun _ => fault, fun _ => fault⟩, m⟩, ⟨⟨fun _ => fault, fun _ => .ok first⟩, m⟩]
    let changed : ReferenceProvider := ⟨fun _ => .ok ⟨m, "Orders", [], .metadata⟩, fun _ => fault⟩
    m.kind = .static ∧ Gave calls m first ∧ (ofCalls calls).getOrCreate changed m = (some first, ofCalls calls) := by
  intro m fault first calls changed
  have hgave : Gave calls m first := ⟨[_], _, [], rfl, by decide⟩
  exact ⟨rfl, hgave, (ofCalls_determined calls).2.2.1 changed m first rfl hgave⟩

end FlowCheck.ReferenceCache
