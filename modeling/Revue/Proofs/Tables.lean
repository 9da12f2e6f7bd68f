import Mathlib.Data.List.Induction
import Revue.Text.Table

/-!
# Facts about tables

Inserting sets the value of one key and leaves all others. Keys stay in the order of their first
insertion, so those of a table are always a beginning of those of a later one. A table lists the
entries that were inserted into it: each key at the place of its first entry, with the value of its
last.
-/

namespace Revue.Text

theorem forall₂_of_mapM {α β : Type} {f : α → Option β} {as : List α} {bs : List β}
    (h : as.mapM f = some bs) : List.Forall₂ (fun a b => f a = some b) as bs := by
  induction as generalizing bs with
  | nil =>
    obtain rfl : [] = bs := by simpa using h
    exact .nil
  | cons a as ih =>
    rw [List.mapM_cons] at h
    obtain ⟨b, hb, hrest⟩ := Option.bind_eq_some_iff.1 h
    obtain ⟨bs', hbs, hcons⟩ := Option.bind_eq_some_iff.1 hrest
    obtain rfl := Option.some.inj hcons
    exact .cons hb (ih hbs)

theorem eraseDups_concat (as : List String) (b : String) :
    (as ++ [b]).eraseDups = if b ∈ as then as.eraseDups else as.eraseDups ++ [b] := by
  rw [List.eraseDups_append]
  split <;> simp_all [List.removeAll, List.eraseDups_cons]

theorem nodup_eraseDups (as : List String) : as.eraseDups.Nodup := by
  induction as using List.reverseRecOn with
  | nil => exact List.nodup_nil
  | append_singleton as a ih =>
    rw [eraseDups_concat]
    split
    · exact ih
    · rename_i hnew
      refine List.nodup_append.2 ⟨ih, by simp, fun b hb c hc hbc => hnew ?_⟩
      obtain rfl := List.mem_singleton.1 hc
      exact hbc ▸ List.mem_eraseDups.1 hb

theorem eraseDups_eraseDups (as : List String) : as.eraseDups.eraseDups = as.eraseDups := by
  induction as using List.reverseRecOn with
  | nil => rfl
  | append_singleton as a ih =>
    rw [eraseDups_concat]
    split
    · exact ih
    · rename_i hnew
      rw [eraseDups_concat, if_neg (mt List.mem_eraseDups.1 hnew), ih]

theorem eraseDups_append_eraseDups (as bs : List String) :
    (as.eraseDups ++ bs.eraseDups).eraseDups = (as ++ bs).eraseDups := by
  induction bs using List.reverseRecOn with
  | nil => simpa using eraseDups_eraseDups as
  | append_singleton bs b ih =>
    rw [← List.append_assoc as bs [b], eraseDups_concat bs, eraseDups_concat (as ++ bs)]
    by_cases hb : b ∈ bs
    · rw [if_pos hb, if_pos (List.mem_append_right _ hb), ih]
    · rw [if_neg hb, ← List.append_assoc, eraseDups_concat, ih]
      simp

namespace Table

variable {α : Type} {t u entries more : Table α} {key other : String} {value : α}

@[simp] theorem keys_nil : keys ([] : Table α) = [] := rfl

@[simp] theorem keys_cons (p : String × α) (t : Table α) : keys (p :: t) = p.1 :: keys t := rfl

@[simp] theorem get?_insert_self (key : String) (value : α) (t : Table α) :
    (t.insert key value).get? key = some value := by
  induction t with
  | nil => simp [insert, get?]
  | cons p t ih =>
    obtain ⟨k, a⟩ := p
    by_cases hk : k = key
    · simp [insert, get?, hk]
    · simp [insert, get?, hk, ih]

theorem get?_insert_of_ne (hne : other ≠ key) (value : α) (t : Table α) :
    (t.insert key value).get? other = t.get? other := by
  induction t with
  | nil => simp [insert, get?, Ne.symm hne]
  | cons p t ih =>
    obtain ⟨k, a⟩ := p
    by_cases hk : k = key
    · subst hk
      simp [insert, get?, Ne.symm hne]
    · simp [insert, get?, hk, ih]

theorem mem_of_get? (h : t.get? key = some value) : (key, value) ∈ t := by
  induction t with
  | nil => cases h
  | cons p t ih =>
    obtain ⟨k, a⟩ := p
    rw [get?] at h
    split at h
    · rename_i hk
      obtain rfl : a = value := Option.some.inj h
      simp [hk]
    · exact List.mem_cons_of_mem _ (ih h)

theorem mem_keys (h : (key, value) ∈ t) : key ∈ t.keys :=
  List.mem_map.2 ⟨_, h, rfl⟩

theorem mem_insert {p : String × α} (h : p ∈ t.insert key value) : p ∈ t ∨ p = (key, value) := by
  induction t with
  | nil => exact Or.inr (List.mem_singleton.1 h)
  | cons q t ih =>
    obtain ⟨k, a⟩ := q
    rw [insert] at h
    split at h
    · rcases List.mem_cons.1 h with rfl | h
      · exact Or.inr rfl
      · exact Or.inl (by simp [h])
    · rcases List.mem_cons.1 h with rfl | h
      · exact Or.inl (by simp)
      · rcases ih h with h | h
        · exact Or.inl (by simp [h])
        · exact Or.inr h

theorem mem_extend {p : String × α} (h : p ∈ t.extend entries) : p ∈ t ∨ p ∈ entries := by
  unfold extend at h
  induction entries generalizing t with
  | nil => exact Or.inl h
  | cons q entries ih =>
    rcases ih h with h | h
    · rcases mem_insert h with h | rfl
      · exact Or.inl h
      · exact Or.inr (by simp)
    · exact Or.inr (by simp [h])

theorem insert_ne_nil (key : String) (value : α) (t : Table α) : t.insert key value ≠ [] := by
  cases t with
  | nil => simp [insert]
  | cons p t =>
    unfold insert
    split <;> simp

theorem extend_eq_nil_iff : t.extend entries = [] ↔ t = [] ∧ entries = [] := by
  unfold extend
  induction entries generalizing t with
  | nil => simp
  | cons p entries ih => simp [ih, insert_ne_nil]

theorem keys_insert (key : String) (value : α) (t : Table α) :
    (t.insert key value).keys = if key ∈ t.keys then t.keys else t.keys ++ [key] := by
  induction t with
  | nil => simp [insert]
  | cons p t ih =>
    obtain ⟨k, a⟩ := p
    by_cases hk : k = key
    · simp [insert, hk]
    · by_cases hmem : key ∈ keys t
      · simp [insert, hk, ih, hmem]
      · simp [insert, hk, ih, hmem, Ne.symm hk]

theorem keys_prefix_insert (key : String) (value : α) (t : Table α) :
    t.keys <+: (t.insert key value).keys := by
  rw [keys_insert]
  split
  · exact List.prefix_rfl
  · exact List.prefix_append _ _

theorem mem_keys_insert (key : String) (value : α) (t : Table α) :
    key ∈ (t.insert key value).keys :=
  mem_keys (mem_of_get? (get?_insert_self key value t))

theorem nodup_keys_insert (h : t.keys.Nodup) : (t.insert key value).keys.Nodup := by
  rw [keys_insert]
  split
  · exact h
  · rename_i hnew
    refine List.nodup_append.2 ⟨h, by simp, ?_⟩
    intro a ha b hb heq
    obtain rfl : b = key := List.mem_singleton.1 hb
    exact hnew (heq ▸ ha)

/-- In a table without repeated keys the value of a key is the only one that stands with it. -/
theorem get?_of_mem (hkeys : t.keys.Nodup) (h : (key, value) ∈ t) : t.get? key = some value := by
  induction t with
  | nil => cases h
  | cons p t ih =>
    obtain ⟨k, a⟩ := p
    obtain ⟨hk, ht⟩ := List.nodup_cons.1 hkeys
    rcases List.mem_cons.1 h with heq | hmem
    · obtain ⟨rfl, rfl⟩ := Prod.mk.inj heq
      simp [get?]
    · have hne : k ≠ key := fun heq => hk (heq ▸ mem_keys hmem)
      simp [get?, hne, ih ht hmem]

theorem mem_keys_insert_iff :
    other ∈ (t.insert key value).keys ↔ other ∈ t.keys ∨ other = key := by
  rw [keys_insert]
  split
  · rename_i hkey
    constructor
    · exact Or.inl
    · rintro (hother | rfl)
      · exact hother
      · exact hkey
  · simp

theorem mem_keys_extend_iff :
    key ∈ (t.extend entries).keys ↔ key ∈ t.keys ∨ key ∈ entries.keys := by
  unfold extend
  induction entries generalizing t with
  | nil => simp
  | cons p entries ih =>
    rw [List.foldl_cons, ih, mem_keys_insert_iff, keys_cons, List.mem_cons, or_assoc]

theorem get?_append : get? key (t ++ u) = (t.get? key).or (u.get? key) := by
  induction t with
  | nil => rfl
  | cons p t ih =>
    rw [List.cons_append, get?, get?]
    split
    · rfl
    · exact ih

theorem extend_concat (t entries : Table α) (p : String × α) :
    t.extend (entries ++ [p]) = (t.extend entries).insert p.1 p.2 :=
  List.foldl_append ..

theorem keys_concat (t : Table α) (p : String × α) : keys (t ++ [p]) = t.keys ++ [p.1] := by
  simp [keys]

theorem keys_extend (hkeys : t.keys.eraseDups = t.keys) (entries : Table α) :
    (t.extend entries).keys = (t.keys ++ entries.keys).eraseDups := by
  induction entries using List.reverseRecOn with
  | nil => exact hkeys.symm.trans (by rw [keys_nil, List.append_nil])
  | append_singleton entries p ih =>
    rw [extend_concat, keys_insert, ih, keys_concat, ← List.append_assoc, eraseDups_concat]
    simp

/-- The value that the last entry of a key has. -/
def last? (key : String) (entries : Table α) : Option α := get? key entries.reverse

theorem last?_concat (entries : Table α) (p : String × α) :
    last? key (entries ++ [p]) = if p.1 = key then some p.2 else entries.last? key := by
  rw [last?, List.reverse_concat]
  rfl

theorem last?_append (t u : Table α) : last? key (t ++ u) = (u.last? key).or (t.last? key) := by
  rw [last?, List.reverse_append, get?_append]
  rfl

theorem get?_extend (t entries : Table α) :
    (t.extend entries).get? key = (entries.last? key).or (t.get? key) := by
  induction entries using List.reverseRecOn with
  | nil => rfl
  | append_singleton entries p ih =>
    rw [extend_concat, last?_concat]
    split
    · rename_i hkey
      rw [← hkey, get?_insert_self]
      rfl
    · rename_i hkey
      rw [get?_insert_of_ne (Ne.symm hkey), ih]

/-- A table lists entries: each key once, at the place of its first entry and with the value of its
last. -/
structure Lists (t entries : Table α) : Prop where
  keys : t.keys = entries.keys.eraseDups
  values : ∀ key, t.get? key = entries.last? key

theorem lists_extend (entries : Table α) : Lists (extend [] entries) entries :=
  ⟨keys_extend rfl entries, fun key => by simp [get?_extend, get?, last?]⟩

namespace Lists

section
variable (h : Lists t entries)
include h

theorem nodup : t.keys.Nodup := h.keys ▸ nodup_eraseDups _

theorem keys_eraseDups : t.keys.eraseDups = t.keys := by
  rw [h.keys, eraseDups_eraseDups]

theorem last?_eq (key : String) : t.last? key = entries.last? key := by
  have hnodup : (Table.keys t.reverse).Nodup := by
    rw [Table.keys, List.map_reverse]
    exact (List.reverse_perm _).nodup_iff.2 h.nodup
  rw [← h.values]
  ext value
  constructor <;> intro hget
  · exact get?_of_mem h.nodup (List.mem_reverse.1 (mem_of_get? hget))
  · exact get?_of_mem hnodup (List.mem_reverse.2 (mem_of_get? hget))

theorem extend (hu : Lists u more) : Lists (t.extend u) (entries ++ more) := by
  refine ⟨?_, fun key => ?_⟩
  · rw [keys_extend h.keys_eraseDups, h.keys, hu.keys, eraseDups_append_eraseDups, Table.keys,
      Table.keys, Table.keys, List.map_append]
  · rw [get?_extend, hu.last?_eq, h.values, last?_append]

theorem mem_values {value : α} (hvalue : value ∈ t.values) : value ∈ entries.values := by
  obtain ⟨p, hp, rfl⟩ := List.mem_map.1 hvalue
  have hget := get?_of_mem h.nodup hp
  rw [h.values] at hget
  exact List.mem_map.2 ⟨p, List.mem_reverse.1 (mem_of_get? hget), rfl⟩

theorem eq_nil_iff : t = [] ↔ entries = [] := by
  rw [← List.map_eq_nil_iff (f := Prod.fst), ← List.map_eq_nil_iff (f := Prod.fst) (l := entries)]
  change t.keys = [] ↔ entries.keys = []
  simp only [h.keys, List.eq_nil_iff_forall_not_mem, List.mem_eraseDups]

end

end Lists

theorem eq_map_keys (hkeys : t.keys.Nodup) (other : α) :
    t = t.keys.map fun key => (key, (t.get? key).getD other) := by
  rw [Table.keys, List.map_map]
  refine (List.map_id t).symm.trans (List.map_congr_left fun p hp => ?_)
  exact Prod.ext rfl (by simp [get?_of_mem hkeys hp])

end Table

end Revue.Text
