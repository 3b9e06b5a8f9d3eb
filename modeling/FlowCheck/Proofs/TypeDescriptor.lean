import Mathlib.Data.List.Nodup
import Mathlib.Logic.Relation
import FlowCheck.TypeDescriptor

/-! The types that the use of a type draws in. Of the types that are found every one is part of the type, and with
    each of them its base and its arguments are found, or others with their keys. -/

namespace FlowCheck.TypeDescriptor

/-- A type is the base or an argument of another. -/
def PartOf (u t : TypeDescriptor) : Prop := t.base = some u ∨ u ∈ t.args

/-- A type is another, or part of it, at any depth. -/
inductive Within (t : TypeDescriptor) : TypeDescriptor → Prop where
  | self : Within t t
  | part {s u} : Within t s → u.PartOf s → Within t u

theorem Within.trans {t s u : TypeDescriptor} (hs : t.Within s) (hu : s.Within u) : t.Within u := by
  induction hu with
  | self => exact hs
  | part _ hpart ih => exact .part ih hpart

theorem Within.of_part {t s u : TypeDescriptor} (hpart : s.PartOf t) (hu : s.Within u) : t.Within u :=
  Within.trans (.part .self hpart) hu

/-- A type is another, or one of its arguments, or of theirs in turn. -/
def AmongArgs : TypeDescriptor → TypeDescriptor → Prop := Relation.ReflTransGen fun t u => u ∈ t.args

theorem AmongArgs.within {t u : TypeDescriptor} (h : t.AmongArgs u) : t.Within u := by
  induction h with
  | refl => exact .self
  | tail _ hu ih => exact .part ih (.inr hu)

/-! ### Collecting -/

/-- More types are found for some types: parts of them, until their keys and the keys of the parts of all that are
found are met. No key is found twice. -/
structure Collects (found ts all : List TypeDescriptor) : Prop where
  more : ∃ more, all = found ++ more ∧ (∀ s ∈ more, ∃ t ∈ ts, t.Within s) ∧
    ∀ s ∈ more, ∀ u : TypeDescriptor, u.PartOf s → u.key ∈ all.map key
  met : ∀ t ∈ ts, t.key ∈ all.map key
  nodup : (found.map key).Nodup → (all.map key).Nodup

namespace Collects

variable {found ts us mid all : List TypeDescriptor}

theorem nil : Collects found [] found := ⟨⟨[], by simp⟩, nofun, id⟩

theorem mono {x : Module × String} (h : Collects found ts all) (hx : x ∈ found.map key) : x ∈ all.map key := by
  obtain ⟨more, rfl, -⟩ := h.more
  rw [List.map_append]
  exact List.mem_append_left _ hx

theorem append (h : Collects found ts mid) (h' : Collects mid us all) : Collects found (ts ++ us) all := by
  obtain ⟨more, rfl, hwithin, hparts⟩ := h.more
  obtain ⟨more', rfl, hwithin', hparts'⟩ := h'.more
  refine ⟨⟨more ++ more', by simp, fun s hs => ?_, fun s hs u hu => ?_⟩, fun t ht => ?_, h'.nodup ∘ h.nodup⟩
  · rcases List.mem_append.mp hs with hs | hs
    · obtain ⟨t, ht, hst⟩ := hwithin s hs
      exact ⟨t, List.mem_append_left _ ht, hst⟩
    · obtain ⟨t, ht, hst⟩ := hwithin' s hs
      exact ⟨t, List.mem_append_right _ ht, hst⟩
  · rcases List.mem_append.mp hs with hs | hs
    · exact h'.mono (hparts s hs u hu)
    · exact hparts' s hs u hu
  · rcases List.mem_append.mp ht with ht | ht
    · exact h'.mono (h.met t ht)
    · exact h'.met t ht

end Collects

theorem mem_parts {t u : TypeDescriptor} : u ∈ t.base.toList ++ t.args ↔ u.PartOf t := by
  rw [List.mem_append, Option.mem_toList, PartOf]

mutual
theorem collects_collect : ∀ (t : TypeDescriptor) (found : List TypeDescriptor), Collects found [t] (collect found t)
  | ⟨ns, name, owner, base, args⟩, found => by
    have hbase := collects_collectBase base (found ++ [⟨ns, name, owner, base, args⟩])
    have hargs := collects_collectAll args (collectBase (found ++ [⟨ns, name, owner, base, args⟩]) base)
    unfold collect
    generalize ht : (⟨ns, name, owner, base, args⟩ : TypeDescriptor) = t at *
    dsimp only
    split
    · rename_i hmet
      exact ⟨⟨[], by simp⟩, by simpa using hmet, id⟩
    · rename_i hnew
      have hparts : base.toList ++ args = t.base.toList ++ t.args := by rw [← ht]
      have hall := hbase.append hargs
      rw [hparts] at hall
      obtain ⟨more, hmore, hwithin, hclosed⟩ := hall.more
      refine ⟨⟨t :: more, by rw [hmore]; simp, ?_, ?_⟩, by simpa using hall.mono (by simp), fun hfound => ?_⟩
      · refine List.forall_mem_cons.mpr ⟨⟨t, .head _, .self⟩, fun s hs => ⟨t, .head _, ?_⟩⟩
        obtain ⟨u, hu, hs⟩ := hwithin s hs
        exact .of_part (mem_parts.mp hu) hs
      · exact List.forall_mem_cons.mpr ⟨fun u hu => hall.met u (mem_parts.mpr hu), hclosed⟩
      · refine hall.nodup ?_
        rw [List.map_append, List.map_singleton]
        exact List.concat_eq_append ▸ hfound.concat hnew
theorem collects_collectBase : ∀ (base : Option TypeDescriptor) (found : List TypeDescriptor),
    Collects found base.toList (collectBase found base)
  | none, _ => .nil
  | some t, found => collects_collect t found
theorem collects_collectAll : ∀ (ts found : List TypeDescriptor), Collects found ts (collectAll found ts)
  | [], _ => .nil
  | t :: ts, found => (collects_collect t found).append (collects_collectAll ts (collect found t))
end

variable {t s u : TypeDescriptor}

/-- A type itself is found first. -/
theorem reachable_cons (t : TypeDescriptor) : ∃ more, t.reachable = t :: more := by
  obtain ⟨ns, name, owner, base, args⟩ := t
  have hbase := collects_collectBase base [⟨ns, name, owner, base, args⟩]
  obtain ⟨more, hmore, -⟩ := (hbase.append (collects_collectAll args _)).more
  refine ⟨more, ?_⟩
  rw [reachable, collect, List.map_nil, if_neg List.not_mem_nil, List.nil_append, hmore]
  rfl

theorem nodup_reachable (t : TypeDescriptor) : (t.reachable.map key).Nodup :=
  (collects_collect t []).nodup List.nodup_nil

theorem self_met : t.key ∈ t.reachable.map key := (collects_collect t []).met t (.head _)

theorem within_of_reachable (h : s ∈ t.reachable) : t.Within s := by
  obtain ⟨more, hmore, hwithin, -⟩ := (collects_collect t []).more
  obtain ⟨_, ht, hs⟩ := hwithin s (by simpa [reachable, hmore] using h)
  rwa [List.mem_singleton.mp ht] at hs

theorem part_met (h : s ∈ t.reachable) (hu : u.PartOf s) : u.key ∈ t.reachable.map key := by
  obtain ⟨more, hmore, -, hparts⟩ := (collects_collect t []).more
  exact hparts s (by simpa [reachable, hmore] using h) u hu

end FlowCheck.TypeDescriptor
