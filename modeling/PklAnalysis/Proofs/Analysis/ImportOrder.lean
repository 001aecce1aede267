import PklAnalysis.Analysis.ImportEdit
import PklAnalysis.Proofs.Modules.BareStore

/-!
# Import lists in order

The order of imports is total and transitive, so a list in order is left as it is when it is put in
order again.  Of the imports with one key only the first is kept: what is kept is a part of the list
in which no two imports have the same key, and the whole list if that is so already.
-/

namespace PklAnalysis

/-! ## The order of imports -/

namespace ImportEdit

instance : Std.TransCmp compareAliases where
  eq_swap {a b} := by
    cases a with
    | none => cases b <;> rfl
    | some a =>
      cases b with
      | none => rfl
      | some b =>
        show Ord.compare a b = (Ord.compare b a).swap
        exact Std.OrientedCmp.eq_swap
  isLE_trans {a b c} hab hbc := by
    cases a with
    | none => cases c <;> rfl
    | some a =>
      cases b with
      | none => exact absurd hab Bool.false_ne_true
      | some b =>
        cases c with
        | none => exact absurd hbc Bool.false_ne_true
        | some c =>
          have hab : (Ord.compare a b).isLE := hab
          have hbc : (Ord.compare b c).isLE := hbc
          show (Ord.compare a c).isLE
          exact Std.TransCmp.isLE_trans hab hbc

/-- URIs with a scheme come first. -/
def rank (i : Import) : Nat := if ModuleUri.hasScheme i.uri then 0 else 1

theorem compare_eq : compare = compareLex (compareLex (compareOn rank) (compareOn Import.uri))
    (fun a b => compareAliases a.asName b.asName) := rfl

instance : Std.TransCmp fun a b : Import => compareAliases a.asName b.asName where
  eq_swap {_ _} := Std.OrientedCmp.eq_swap
  isLE_trans {_ _ _} := Std.TransCmp.isLE_trans

instance : Std.TransCmp compare := by
  rw [compare_eq]
  infer_instance

theorem perm_sort (is : List Import) : (sort is).Perm is := List.mergeSort_perm _ _

theorem pairwise_sort (is : List Import) :
    (sort is).Pairwise fun a b => (compare a b).isLE := by
  apply List.pairwise_mergeSort
  · exact fun a b c => Std.TransCmp.isLE_trans
  · intro a b
    have hswap : compare b a = (compare a b).swap := Std.OrientedCmp.eq_swap
    rw [hswap]
    cases compare a b <;> rfl

/-- Putting a list in order again makes no difference. -/
theorem sort_sort (is : List Import) : sort (sort is) = sort is :=
  List.mergeSort_of_pairwise (pairwise_sort is)

/-- Two imports that are not in order change places. -/
theorem sort_pair {a b : Import} (h : compare a b = .gt) : sort [a, b] = [b, a] := by
  simp [sort, List.mergeSort, List.MergeSort.Internal.splitInTwo, h]

end ImportEdit

/-! ## The first of each key -/

namespace Dict

section Entries

variable {α β : Type} [BEq α]

theorem entries_insertNew (d : Dict α β) (a : α) (b : β) :
    (d.insertNew a b).entries =
      if d.contains a then d.entries else d.entries ++ [(a, b)] := by
  rw [insertNew]
  split
  · rfl
  · next ha =>
    have hput : ∀ es : List (α × β), es.any (fun e => e.1 == a) = false →
        put a b es = es ++ [(a, b)] := by
      intro es hes
      induction es with
      | nil => rfl
      | cons e es ih =>
        obtain ⟨he, hes⟩ := Bool.or_eq_false_iff.mp hes
        rw [put, if_neg (by simp [he]), ih hes, List.cons_append]
    exact hput d.entries (Bool.eq_false_iff.mpr ha)

end Entries

variable {α β : Type} [BEq α] [LawfulBEq α] (key : β → α)

/-- The values of a list, each under its key unless that has one already. -/
def firstsInto (d : Dict α β) (bs : List β) : Dict α β :=
  bs.foldl (fun d b => d.insertNew (key b) b) d

theorem nodup_keys_firstsInto (bs : List β) {d : Dict α β} (hd : d.keys.Nodup) :
    (firstsInto key d bs).keys.Nodup := by
  induction bs generalizing d with
  | nil => exact hd
  | cons b bs ih => exact ih (nodup_keys_insertNew hd (key b) b)

omit [LawfulBEq α] in
/-- Some values of the list are added, in its order and under their keys. -/
theorem exists_entries_firstsInto (bs : List β) (d : Dict α β) :
    ∃ l : List β, l.Sublist bs ∧
      (firstsInto key d bs).entries = d.entries ++ l.map fun b => (key b, b) := by
  induction bs generalizing d with
  | nil => exact ⟨[], List.Sublist.slnil, (List.append_nil _).symm⟩
  | cons b bs ih =>
    obtain ⟨l, hl, hentries⟩ := ih (d.insertNew (key b) b)
    rw [entries_insertNew] at hentries
    by_cases hkey : d.contains (key b)
    · rw [if_pos hkey] at hentries
      exact ⟨l, hl.cons b, hentries⟩
    · rw [if_neg hkey, List.append_assoc] at hentries
      exact ⟨b :: l, hl.cons_cons b, hentries⟩

/-- Afterwards the keys of all values of the list are there. -/
theorem mem_keys_firstsInto (bs : List β) {d : Dict α β} {a : α}
    (ha : a ∈ d.keys ∨ ∃ b ∈ bs, key b = a) : a ∈ (firstsInto key d bs).keys := by
  induction bs generalizing d with
  | nil => exact ha.resolve_right fun ⟨b, hb, _⟩ => List.not_mem_nil hb
  | cons b bs ih =>
    have hinsert : ∀ c, c ∈ d.keys ∨ c = key b → c ∈ (d.insertNew (key b) b).keys := by
      intro c hc
      rw [keys, entries_insertNew]
      split
      · next hkey =>
        rcases hc with hc | rfl
        · exact hc
        · obtain ⟨e, he, hekey⟩ := List.any_eq_true.mp hkey
          exact List.mem_map.mpr ⟨e, he, beq_iff_eq.mp hekey⟩
      · rw [List.map_append, List.mem_append, List.map_singleton, List.mem_singleton]
        exact hc
    refine ih ?_
    rcases ha with ha | ⟨c, hc, rfl⟩
    · exact .inl (hinsert a (.inl ha))
    · rcases List.mem_cons.mp hc with rfl | hc
      · exact .inl (hinsert _ (.inr rfl))
      · exact .inr ⟨c, hc, rfl⟩

/-- Values of different new keys are all added. -/
theorem entries_firstsInto (bs : List β) {d : Dict α β} (hbs : (bs.map key).Nodup)
    (hd : ∀ b ∈ bs, key b ∉ d.keys) :
    (firstsInto key d bs).entries = d.entries ++ bs.map fun b => (key b, b) := by
  induction bs generalizing d with
  | nil => exact (List.append_nil _).symm
  | cons b bs ih =>
    obtain ⟨hb, hbs⟩ := List.nodup_cons.mp hbs
    obtain ⟨hnew, hd⟩ := List.forall_mem_cons.mp hd
    have hkey : d.contains (key b) = false := by
      rw [contains, List.any_eq_false]
      intro e he hekey
      exact hnew (List.mem_map.mpr ⟨e, he, beq_iff_eq.mp hekey⟩)
    have hentries := entries_insertNew d (key b) b
    rw [hkey] at hentries
    have hrest : ∀ c ∈ bs, key c ∉ (d.insertNew (key b) b).keys := by
      intro c hc hmem
      rw [keys, hentries, if_neg Bool.false_ne_true, List.map_append, List.mem_append] at hmem
      rcases hmem with hmem | hmem
      · exact hd c hc hmem
      · exact hb (List.mem_map.mpr ⟨c, hc, List.mem_singleton.mp hmem⟩)
    show (firstsInto key (d.insertNew (key b) b) bs).entries = _
    rw [ih hbs hrest, hentries, if_neg Bool.false_ne_true, List.append_assoc]
    rfl

end Dict

namespace ImportEdit

variable {α : Type} [BEq α] [LawfulBEq α] (key : Import → α)

/-- The first imports of each key. -/
def firsts (is : List Import) : List Import := (Dict.firstsInto key Dict.empty is).values

omit [LawfulBEq α] in
theorem entries_firsts (is : List Import) : (firsts key is).Sublist is ∧
    (Dict.firstsInto key Dict.empty is).entries = (firsts key is).map fun i => (key i, i) := by
  obtain ⟨l, hl, hentries⟩ := Dict.exists_entries_firstsInto key is Dict.empty
  have hvalues : firsts key is = l := by
    rw [firsts, Dict.values, hentries, Dict.empty, List.nil_append, List.map_map]
    exact List.map_id l
  rw [hvalues]
  exact ⟨hl, hentries⟩

theorem nodup_firsts (is : List Import) : ((firsts key is).map key).Nodup := by
  have hkeys : (Dict.firstsInto key Dict.empty is).keys.Nodup :=
    Dict.nodup_keys_firstsInto key is List.nodup_nil
  rw [Dict.keys, (entries_firsts key is).2, List.map_map] at hkeys
  exact hkeys

/-- Each import has the key of one that is kept. -/
theorem exists_mem_firsts {is : List Import} {i : Import} (hi : i ∈ is) :
    ∃ j ∈ firsts key is, key j = key i := by
  have hkey : key i ∈ (Dict.firstsInto key Dict.empty is).keys :=
    Dict.mem_keys_firstsInto key is (.inr ⟨i, hi, rfl⟩)
  rw [Dict.keys, (entries_firsts key is).2, List.map_map] at hkey
  exact List.mem_map.mp hkey

theorem firsts_of_nodup {is : List Import} (his : (is.map key).Nodup) : firsts key is = is := by
  have hentries := Dict.entries_firstsInto key is his (d := Dict.empty)
    (fun _ _ => List.not_mem_nil)
  rw [firsts, Dict.values, hentries, Dict.empty, List.nil_append, List.map_map]
  exact List.map_id is

end ImportEdit

end PklAnalysis
