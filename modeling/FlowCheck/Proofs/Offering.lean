import Mathlib.Data.List.Basic
import Mathlib.Data.List.Induction
import Mathlib.Data.List.Nodup
import FlowCheck.Assembly
import FlowCheck.RequiredModules

/-! Which modules are asked for. Every module that is offered is asked for once, at its first occurrence, and what is
    collected is decided by these occurrences alone: what the cache has kept saves questions to the provider and
    nothing else. -/

namespace FlowCheck

/-! ### First occurrences -/

section Distinct

variable {α : Type} [DecidableEq α]

theorem distinct_snoc (xs : List α) (x : α) :
    distinct (xs ++ [x]) = if x ∈ distinct xs then distinct xs else distinct xs ++ [x] := by
  rw [distinct, List.foldl_append]
  rfl

theorem mem_distinct {xs : List α} {x : α} : x ∈ distinct xs ↔ x ∈ xs := by
  induction xs using List.reverseRecOn with
  | nil => exact Iff.rfl
  | append_singleton xs y ih =>
    rw [distinct_snoc, List.mem_append, List.mem_singleton, ← ih]
    split
    · rename_i hy
      exact ⟨.inl, fun h => h.elim id fun h => h ▸ hy⟩
    · rw [List.mem_append, List.mem_singleton]

theorem nodup_distinct (xs : List α) : (distinct xs).Nodup := by
  induction xs using List.reverseRecOn with
  | nil => exact List.nodup_nil
  | append_singleton xs y ih =>
    rw [distinct_snoc]
    split
    · exact ih
    · rename_i hy
      exact List.concat_eq_append ▸ List.Nodup.concat hy ih

theorem distinct_of_nodup {xs : List α} (h : xs.Nodup) : distinct xs = xs := by
  induction xs using List.reverseRecOn with
  | nil => rfl
  | append_singleton xs y ih =>
    obtain ⟨hxs, -, hne⟩ := List.nodup_append.mp h
    rw [distinct_snoc, ih hxs, if_neg fun hy => hne y hy y (.head _) rfl]

/-- What occurs for the first time may be sorted out in two steps. -/
theorem distinct_distinct_append (xs ys : List α) : distinct (distinct xs ++ ys) = distinct (xs ++ ys) := by
  induction ys using List.reverseRecOn with
  | nil => rw [List.append_nil, List.append_nil, distinct_of_nodup (nodup_distinct xs)]
  | append_singleton ys y ih => rw [← List.append_assoc, ← List.append_assoc, distinct_snoc, distinct_snoc, ih]

end Distinct

theorem RequiredModules.ofList_snoc (ms : List Module) (m : Module) : ofList (ms ++ [m]) = (ofList ms).add m :=
  List.foldl_append

/-- The members of a set are the modules that were added to it, in the order in which they were added first. -/
theorem RequiredModules.members_ofList (ms : List Module) : (ofList ms).members = distinct ms := by
  induction ms using List.reverseRecOn with
  | nil => rfl
  | append_singleton ms m ih =>
    rw [ofList_snoc, distinct_snoc, add, ← ih]
    split <;> rfl

/-! ### Providers -/

namespace ReferenceProvider

variable (provider : ReferenceProvider)

/-- The reference that can be had for a module: by what the module carries, or else by its file. -/
def reference? (m : Module) : Option Reference :=
  (provider.fromMetadata m).toOption.or (provider.fromFile m).toOption

/-- What is asked to have the reference: the file only if the module does not carry what is needed. -/
def questions (m : Module) : List Request :=
  ⟨m, .metadata⟩ :: if (provider.fromMetadata m).toOption.isSome then [] else [⟨m, .file⟩]

/-- A reference that is had for a module is one to that module. -/
def Owning : Prop := ∀ m r, provider.reference? m = some r → r.owner = m

/-- Of different modules different references are had, each to its module. -/
theorem Owning.owners {provider : ReferenceProvider} (h : provider.Owning) (ms : List Module) :
    (ms.filterMap provider.reference?).map (·.owner) = ms.filter fun m => (provider.reference? m).isSome := by
  induction ms with
  | nil => rfl
  | cons m ms ih =>
    cases hr : provider.reference? m with
    | none => rw [List.filterMap_cons_none hr, List.filter_cons_of_neg (by simp [hr]), ih]
    | some r =>
      rw [List.filterMap_cons_some hr, List.filter_cons_of_pos (by simp [hr]), List.map_cons, ih, h m r hr]

theorem produce_eq (m : Module) :
    ReferenceCache.produce provider m = (provider.reference? m, provider.questions m) := by
  unfold ReferenceCache.produce reference? questions
  cases provider.fromMetadata m with
  | ok r => rfl
  | error => cases provider.fromFile m <;> rfl

theorem module_of_mem_questions {m : Module} {q : Request} (h : q ∈ provider.questions m) : q.module = m := by
  unfold questions at h
  split at h <;> simp at h <;> grind

/-- Each module is asked about by what it carries, once. -/
theorem metadata_questions (ms : List Module) :
    ((ms.flatMap provider.questions).filter (·.source == .metadata)).map (·.module) = ms := by
  induction ms with
  | nil => rfl
  | cons m ms ih =>
    have hone : (provider.questions m).filter (·.source == .metadata) = [⟨m, .metadata⟩] := by
      unfold questions
      split <;> rfl
    rw [List.flatMap_cons, List.filter_append, hone, List.map_append, ih]
    rfl

/-- The questions about some of the modules are some of the questions about the modules. -/
theorem filter_questions (p : Module → Bool) (ms : List Module) :
    (ms.flatMap provider.questions).filter (p ·.module) = (ms.filter p).flatMap provider.questions := by
  induction ms with
  | nil => rfl
  | cons m ms ih =>
    have hmodule {q : Request} (hq : q ∈ provider.questions m) : p q.module = p m := by
      rw [provider.module_of_mem_questions hq]
    rw [List.flatMap_cons, List.filter_append, ih]
    cases hm : p m with
    | true =>
      rw [List.filter_eq_self.mpr fun q hq => (hmodule hq).trans hm, List.filter_cons_of_pos hm, List.flatMap_cons]
    | false =>
      have hnone : (provider.questions m).filter (p ·.module) = [] :=
        List.filter_eq_nil_iff.mpr fun q hq => by simp [hmodule hq, hm]
      rw [hnone, List.filter_cons_of_neg (by simp [hm]), List.nil_append]

end ReferenceProvider

/-! ### The cache -/

namespace ReferenceCache

variable {provider : ReferenceProvider} {start cache : ReferenceCache} {ms : List Module}

/-- What is kept for a module is the reference that the provider gives for it. -/
def Faithful (provider : ReferenceProvider) (cache : ReferenceCache) : Prop :=
  ∀ m r, cache.find? m = some r → provider.reference? m = some r

theorem faithful_empty : empty.Faithful provider := nofun

/-- The cache after some modules, each of them once, were asked for. -/
structure After (provider : ReferenceProvider) (cache start : ReferenceCache) (ms : List Module) : Prop where
  faithful : cache.Faithful provider
  others : ∀ m ∉ ms, cache.find? m = start.find? m
  requests : cache.requests = start.requests ++ (ms.filter (!start.contains ·)).flatMap provider.questions

theorem After.nil (h : start.Faithful provider) : start.After provider start [] :=
  ⟨h, fun _ _ => rfl, by simp⟩

/-- What is given for a module is the reference of the provider, which is asked only if the module was not kept. -/
theorem After.getOrCreate (h : cache.After provider start ms) {m : Module} (hm : m ∉ ms) :
    (cache.getOrCreate provider m).1 = provider.reference? m ∧
      (cache.getOrCreate provider m).2.After provider start (ms ++ [m]) := by
  -- A module that was not asked for is kept now just if it was kept at the start.
  have hstart : start.contains m = (cache.find? m).isSome := by rw [contains, h.others m hm]
  have hothers : ∀ m' ∉ ms ++ [m], cache.find? m' = start.find? m' := fun m' hm' =>
    h.others m' fun hin => hm' (List.mem_append_left _ hin)
  unfold ReferenceCache.getOrCreate
  cases hfind : cache.find? m with
  | some r =>
    refine ⟨(h.faithful m r hfind).symm, h.faithful, hothers, ?_⟩
    rw [h.requests, List.filter_append, List.filter_singleton, hstart, hfind]
    simp
  | none =>
    have hrequests : cache.requests ++ provider.questions m =
        start.requests ++ ((ms ++ [m]).filter (!start.contains ·)).flatMap provider.questions := by
      rw [h.requests, List.filter_append, List.filter_singleton, hstart, hfind]
      simp
    simp only [ReferenceProvider.produce_eq]
    cases hreference : provider.reference? m with
    | none => exact ⟨rfl, h.faithful, hothers, hrequests⟩
    | some r =>
      refine ⟨rfl, ?_⟩
      have hadded : ∀ m', (cache.entries ++ [(m, r)]).lookup m' = if m' = m then some r else cache.find? m' := by
        intro m'
        rw [List.lookup_append, List.lookup_cons, List.lookup_nil]
        by_cases hm' : m' = m
        · rw [hm', if_pos rfl, beq_self_eq_true]
          have hnone : cache.entries.lookup m = none := hfind
          rw [hnone]
          rfl
        · rw [if_neg hm', beq_false_of_ne hm']
          exact Option.or_none
      dsimp only
      split
      · refine ⟨fun m' r' hr' => ?_, fun m' hm' => ?_, hrequests⟩
        · rw [find?, hadded] at hr'
          split at hr'
          · rename_i hm'
            rw [hm', hreference, hr']
          · exact h.faithful m' r' hr'
        · rw [find?, hadded, if_neg fun e : m' = m => hm' (e ▸ List.mem_append_right _ (.head _))]
          exact hothers m' hm'
      · exact ⟨h.faithful, hothers, hrequests⟩

end ReferenceCache

/-! ### Offers -/

/-- References were collected for the modules `ms`, after the modules `before` had been offered. -/
structure Offer.Of (provider : ReferenceProvider) (start : ReferenceCache) (before ms : List Module) (o : Offer) :
    Prop where
  offered : o.offered = distinct (before ++ ms)
  cache : o.cache.After provider start o.offered
  references : ∃ new, o.offered = distinct before ++ new ∧ o.references = new.filterMap provider.reference?

namespace Offer

variable {provider : ReferenceProvider} {start : ReferenceCache} {before ms : List Module} {o : Offer}

theorem Of.next (h : o.Of provider start before ms) (m : Module) :
    (o.next provider m).Of provider start before (ms ++ [m]) := by
  obtain ⟨new, hnew, hreferences⟩ := h.references
  have hoffered : distinct (before ++ (ms ++ [m])) =
      if m ∈ o.offered then o.offered else o.offered ++ [m] := by
    rw [← List.append_assoc, distinct_snoc, h.offered]
  unfold Offer.next
  split
  · rename_i hm
    exact ⟨by rw [hoffered, if_pos hm], h.cache, new, hnew, hreferences⟩
  · rename_i hm
    obtain ⟨hgot, hafter⟩ := h.cache.getOrCreate hm
    refine ⟨by rw [hoffered, if_neg hm], hafter, new ++ [m], by simp [hnew], ?_⟩
    dsimp only
    rw [hgot, hreferences, List.filterMap_append, List.filterMap_cons, List.filterMap_nil]
    cases provider.reference? m <;> rfl

/-- What is collected does not depend on the cache. -/
theorem Of.references_eq {start' : ReferenceCache} {o' : Offer} (h : o.Of provider start before ms)
    (h' : o'.Of provider start' before ms) : o.references = o'.references := by
  obtain ⟨new, hnew, hreferences⟩ := h.references
  obtain ⟨new', hnew', hreferences'⟩ := h'.references
  have hsame : new = new' := List.append_cancel_left (hnew.symm.trans (h.offered.trans (h'.offered.symm.trans hnew')))
  rw [hreferences, hreferences', hsame]

theorem Of.all {cache : ReferenceCache} (h : cache.After provider start (distinct before)) (ms : List Module) :
    (Offer.all provider (distinct before) cache ms).Of provider start before ms := by
  unfold Offer.all
  induction ms using List.reverseRecOn with
  | nil => exact ⟨by simp, h, [], by simp, rfl⟩
  | append_singleton ms m ih =>
    rw [List.foldl_append]
    exact ih.next m

/-- The references that are collected for some portions of modules, one portion after the other. -/
def portions (provider : ReferenceProvider) (offered : List Module) (cache : ReferenceCache) :
    List (List Module) → List (List Reference)
  | [] => []
  | ms :: more =>
    let o := Offer.all provider offered cache ms
    o.references :: portions provider o.offered o.cache more

theorem portions_eq {start' cache cache' : ReferenceCache} (h : cache.After provider start (distinct before))
    (h' : cache'.After provider start' (distinct before)) (more : List (List Module)) :
    portions provider (distinct before) cache more = portions provider (distinct before) cache' more := by
  induction more generalizing before cache cache' with
  | nil => rfl
  | cons ms more ih =>
    have hall := Of.all h ms
    have hall' := Of.all h' ms
    simp only [portions]
    rw [hall.references_eq hall', hall.offered, hall'.offered]
    exact congrArg _ (ih (hall.offered ▸ hall.cache) (hall'.offered ▸ hall'.cache))

end Offer

end FlowCheck
