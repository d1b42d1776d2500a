import Mathlib.Data.String.Basic
import Mathlib.Data.List.Induction
import Mathlib.Data.List.Nodup
import Converge.Catalog

/-!
# What is in a catalog

A catalog is known by what it has under each name: the value that was put there last.  Its entries
are in the order of their names, so that nothing else about how it came to be can be told from it.
-/

namespace Converge.Catalog

variable {α : Type} {x : String × α} {name other : String} {a : α}
  {entries pairs pairs' : List (String × α)} {c d : Catalog α}

/-! ## Insertion -/

theorem mem_of_mem_insertEntry (h : x ∈ insertEntry name a entries) :
    x = (name, a) ∨ x ∈ entries := by
  induction entries with
  | nil => exact .inl (List.mem_singleton.mp h)
  | cons e rest ih =>
      obtain ⟨n, b⟩ := e
      rw [insertEntry] at h
      split at h
      · exact List.mem_cons.mp h
      · split at h
        · exact (List.mem_cons.mp h).imp_right (List.mem_cons_of_mem _)
        · rcases List.mem_cons.mp h with rfl | h
          · exact .inr List.mem_cons_self
          · exact (ih h).imp_right (List.mem_cons_of_mem _)

theorem insertEntry_perm (h : name ∉ entries.map Prod.fst) :
    (insertEntry name a entries).Perm ((name, a) :: entries) := by
  induction entries with
  | nil => exact .refl _
  | cons e rest ih =>
      obtain ⟨n, b⟩ := e
      rw [List.map_cons, List.mem_cons, not_or] at h
      rw [insertEntry]
      split
      · exact .refl _
      · rw [if_neg h.1]
        exact ((ih h.2).cons (n, b)).trans (.swap _ _ rest)

theorem lookup_insertEntry_self (name : String) (a : α) (entries : List (String × α)) :
    (insertEntry name a entries).lookup name = some a := by
  induction entries with
  | nil => exact List.lookup_cons_self
  | cons e rest ih =>
      obtain ⟨n, b⟩ := e
      rw [insertEntry]
      split
      · exact List.lookup_cons_self
      · split
        · exact List.lookup_cons_self
        · rename_i hne
          rw [List.lookup_cons, beq_false_of_ne hne]
          exact ih

theorem lookup_insertEntry_of_ne (h : other ≠ name) (a : α) (entries : List (String × α)) :
    (insertEntry name a entries).lookup other = entries.lookup other := by
  induction entries with
  | nil => rw [insertEntry, List.lookup_cons, beq_false_of_ne h]
  | cons e rest ih =>
      obtain ⟨n, b⟩ := e
      rw [insertEntry]
      split
      · rw [List.lookup_cons, beq_false_of_ne h]
      · split
        · rename_i heq
          subst heq
          rw [List.lookup_cons, List.lookup_cons, beq_false_of_ne h]
        · rw [List.lookup_cons, List.lookup_cons, ih]

@[simp] theorem find?_insert_self (c : Catalog α) (name : String) (a : α) :
    (c.insert name a).find? name = some a :=
  lookup_insertEntry_self name a c.entries

theorem find?_insert_of_ne (h : other ≠ name) (c : Catalog α) (a : α) :
    (c.insert name a).find? other = c.find? other :=
  lookup_insertEntry_of_ne h a c.entries

/-! ## The order of entries -/

/-- The names go up from entry to entry. -/
def Ordered (c : Catalog α) : Prop := c.entries.Pairwise fun e f => e.1 < f.1

theorem ordered_empty : (empty : Catalog α).Ordered := List.Pairwise.nil

theorem pairwise_insertEntry (name : String) (a : α)
    (h : entries.Pairwise fun e f => e.1 < f.1) :
    (insertEntry name a entries).Pairwise fun e f => e.1 < f.1 := by
  induction entries with
  | nil => exact List.pairwise_singleton _ _
  | cons e rest ih =>
      obtain ⟨n, b⟩ := e
      obtain ⟨hfirst, hrest⟩ := List.pairwise_cons.mp h
      rw [insertEntry]
      split
      · rename_i hlt
        refine List.pairwise_cons.mpr ⟨fun f hf => ?_, h⟩
        rcases List.mem_cons.mp hf with rfl | hf
        · exact hlt
        · exact hlt.trans (hfirst f hf)
      · rename_i hle
        split
        · rename_i heq
          subst heq
          exact List.pairwise_cons.mpr ⟨hfirst, hrest⟩
        · rename_i hne
          refine List.pairwise_cons.mpr ⟨fun f hf => ?_, ih hrest⟩
          rcases mem_of_mem_insertEntry hf with rfl | hf
          · exact lt_of_le_of_ne (not_lt.mp hle) (Ne.symm hne)
          · exact hfirst f hf

theorem Ordered.insert (h : c.Ordered) (name : String) (a : α) : (c.insert name a).Ordered :=
  pairwise_insertEntry name a h

theorem Ordered.nodup_names (h : c.Ordered) : c.names.Nodup :=
  List.pairwise_map.mpr (h.imp ne_of_lt)

theorem Ordered.nodup_entries (h : c.Ordered) : c.entries.Nodup :=
  h.nodup_names.of_map

/-! ## Entries and what is found -/

theorem find?_of_mem (h : c.names.Nodup) (ha : (name, a) ∈ c.entries) :
    c.find? name = some a := by
  obtain ⟨before, after, hentries⟩ := List.append_of_mem ha
  refine List.lookup_eq_some_iff.mpr ⟨before, after, hentries, fun p hp => ?_⟩
  rw [names, hentries, List.map_append, List.nodup_append] at h
  have hne := h.2.2 p.1 (List.mem_map_of_mem hp) name (by simp)
  simpa using hne.symm

theorem mem_of_find? (h : c.find? name = some a) : (name, a) ∈ c.entries := by
  obtain ⟨before, after, hentries, -⟩ := List.lookup_eq_some_iff.mp h
  rw [hentries]
  exact List.mem_append_right _ List.mem_cons_self

theorem Ordered.mem_entries (h : c.Ordered) : (name, a) ∈ c.entries ↔ c.find? name = some a :=
  ⟨find?_of_mem h.nodup_names, mem_of_find?⟩

/-- Catalogs in which the same is found are the same. -/
theorem Ordered.ext (hc : c.Ordered) (hd : d.Ordered) (h : ∀ name, c.find? name = d.find? name) :
    c = d := by
  obtain ⟨entries⟩ := c
  obtain ⟨entries'⟩ := d
  have hperm : entries.Perm entries' := by
    refine (List.perm_ext_iff_of_nodup hc.nodup_entries hd.nodup_entries).mpr fun ⟨name, a⟩ => ?_
    exact hc.mem_entries.trans ((by rw [h name] : _ ↔ _).trans hd.mem_entries.symm)
  congr
  exact hperm.eq_of_pairwise (fun _ _ _ _ hef hfe => absurd hef hfe.asymm) hc hd

/-! ## Catalogs of lists -/

/-- What is in a catalog was put into it. -/
theorem mem_of_mem_ofList (h : x ∈ (ofList pairs).entries) : x ∈ pairs := by
  have hfold : ∀ c : Catalog α, x ∈ (pairs.foldl (fun c p => c.insert p.1 p.2) c).entries →
      x ∈ c.entries ∨ x ∈ pairs := by
    clear h
    induction pairs with
    | nil => exact fun c hx => .inl hx
    | cons p pairs ih =>
        intro c hx
        rcases ih _ hx with hx | hx
        · rcases mem_of_mem_insertEntry hx with rfl | hx
          · exact .inr List.mem_cons_self
          · exact .inl hx
        · exact .inr (List.mem_cons_of_mem _ hx)
  rcases hfold empty h with h | h
  · exact absurd h List.not_mem_nil
  · exact h

/-- A catalog of a list without repeated names has the entries of the list. -/
theorem perm_ofList (h : (pairs.map Prod.fst).Nodup) : (ofList pairs).entries.Perm pairs := by
  have hfold : ∀ c : Catalog α, ((c.entries ++ pairs).map Prod.fst).Nodup →
      (pairs.foldl (fun c p => c.insert p.1 p.2) c).entries.Perm (c.entries ++ pairs) := by
    clear h
    induction pairs with
    | nil => exact fun c _ => by simp
    | cons p pairs ih =>
        intro c hnodup
        have hmiddle : (c.entries ++ p :: pairs).Perm (p :: (c.entries ++ pairs)) :=
          List.perm_middle
        have hnodup' : ((p :: (c.entries ++ pairs)).map Prod.fst).Nodup :=
          (hmiddle.map Prod.fst).nodup_iff.mp hnodup
        rw [List.map_cons, List.nodup_cons, List.map_append, List.mem_append, not_or] at hnodup'
        have hinsert : ((c.insert p.1 p.2).entries ++ pairs).Perm (p :: (c.entries ++ pairs)) :=
          (insertEntry_perm hnodup'.1.1).append_right pairs
        have htwice := hinsert.trans hmiddle.symm
        exact (ih _ ((htwice.map Prod.fst).nodup_iff.mpr hnodup)).trans htwice
  exact hfold empty h

theorem ofList_append_singleton (pairs : List (String × α)) (p : String × α) :
    ofList (pairs ++ [p]) = (ofList pairs).insert p.1 p.2 := by
  rw [ofList, List.foldl_append]
  rfl

theorem ordered_ofList (pairs : List (String × α)) : (ofList pairs).Ordered := by
  induction pairs using List.reverseRecOn with
  | nil => exact ordered_empty
  | append_singleton pairs p ih =>
      rw [ofList_append_singleton]
      exact ih.insert p.1 p.2

/-- The value under a name is the one that was given last. -/
theorem find?_ofList (pairs : List (String × α)) (name : String) :
    (ofList pairs).find? name = pairs.reverse.lookup name := by
  induction pairs using List.reverseRecOn with
  | nil => rfl
  | append_singleton pairs p ih =>
      obtain ⟨n, a⟩ := p
      rw [ofList_append_singleton, List.reverse_concat, List.lookup_cons]
      by_cases h : name = n
      · subst h
        rw [find?_insert_self, beq_self_eq_true]
      · rw [find?_insert_of_ne h, beq_false_of_ne h, ih]

/-- In what order values are given does not matter, nor do values that are given again later. -/
theorem ofList_congr (h : ∀ name, pairs.reverse.lookup name = pairs'.reverse.lookup name) :
    ofList pairs = ofList pairs' := by
  refine (ordered_ofList pairs).ext (ordered_ofList pairs') fun name => ?_
  rw [find?_ofList, find?_ofList, h name]

end Converge.Catalog
