import MarkupBinding.Entries

/-!
# Looking up and setting named entries

* `nodup_names_insertNew`: an entry that is added unless its name is there.
* `get?_of_mem`: where no name comes twice, each entry is the one that its name leads to.
* `get?_set_self`, `get?_set_of_ne`: what a name leads to once a value is set.
* `set_set`, `set_comm`: two values that are set, of one name and of two.
-/

namespace MarkupBinding.Entries

variable {α : Type} {entries : Entries α} {name : Text} {value : α}

@[simp] theorem names_cons (entry : Text × α) (entries : Entries α) :
    names (entry :: entries) = entry.1 :: names entries := rfl

theorem names_append (first second : Entries α) :
    names (first ++ second) = names first ++ names second := List.map_append

/-- Where no name comes twice, an entry has a name of its own. -/
theorem notMem_names_of_nodup {before after : Entries α}
    (h : (names (before ++ (name, value) :: after)).Nodup) : name ∉ names before := by
  rw [names_append] at h
  exact fun hmem => (List.nodup_append.1 h).2.2 name hmem name List.mem_cons_self rfl

/-- Adding an entry unless its name is there makes no name come twice. -/
theorem nodup_names_insertNew (h : entries.names.Nodup) (name : Text) (value : α) :
    (entries.insertNew name value).names.Nodup := by
  unfold insertNew
  split
  · exact h
  · next hnew =>
    rw [names_append, List.nodup_append]
    refine ⟨h, List.nodup_cons.2 ⟨List.not_mem_nil, List.nodup_nil⟩, ?_⟩
    rintro key hkey _ hsame rfl
    obtain ⟨entry, hentry, rfl⟩ := List.mem_map.1 hkey
    exact hnew (List.any_eq_true.2 ⟨entry, hentry, beq_iff_eq.2 (List.mem_singleton.1 hsame)⟩)

/-- An entry of the new list was there before, or is the one that was added. -/
theorem mem_of_mem_insertNew {entry : Text × α} (h : entry ∈ entries.insertNew name value) :
    entry ∈ entries ∨ entry = (name, value) := by
  unfold insertNew at h
  split at h
  · exact .inl h
  · exact (List.mem_append.1 h).imp_right List.mem_singleton.1

theorem get?_of_mem (hnodup : entries.names.Nodup) (hmem : (name, value) ∈ entries) :
    entries.get? name = some value := by
  induction entries with
  | nil => cases hmem
  | cons entry entries ih =>
    obtain ⟨key, content⟩ := entry
    obtain ⟨hnot, hnodup⟩ := List.nodup_cons.1 hnodup
    unfold get? at ih ⊢
    rw [List.lookup_cons]
    rcases List.mem_cons.1 hmem with heq | hrest
    · cases heq
      rw [beq_self_eq_true]
    · have hne : name ≠ key := by
        rintro rfl
        exact hnot (List.mem_map.2 ⟨_, hrest, rfl⟩)
      rw [beq_false_of_ne hne]
      exact ih hnodup hrest

theorem get?_eq_none (h : name ∉ entries.names) : entries.get? name = none := by
  unfold get?
  rw [List.lookup_eq_none_iff]
  intro entry hentry
  rw [bne_iff_ne]
  rintro rfl
  exact h (List.mem_map_of_mem hentry)

/-- A name leads to something just if there is an entry of that name. -/
theorem isSome_get?_iff : (entries.get? name).isSome = true ↔ name ∈ entries.names := by
  constructor
  · intro h
    refine Decidable.byContradiction fun hnot => ?_
    rw [get?_eq_none hnot] at h
    cases h
  · intro hmem
    obtain ⟨entry, hentry, rfl⟩ := List.mem_map.1 hmem
    unfold get?
    rw [List.lookup_isSome_iff]
    exact ⟨entry, hentry, beq_iff_eq.2 rfl⟩

/-! ## Values that are set -/

variable {other : Text}

theorem get?_cons (key : Text) (content : α) (entries : Entries α) (name : Text) :
    get? ((key, content) :: entries) name = if name = key then some content else get? entries name := by
  unfold get?
  rw [List.lookup_cons]
  by_cases h : name = key
  · rw [if_pos h, beq_iff_eq.2 h]
  · rw [if_neg h, beq_false_of_ne h]

/-- A value that a name leads to is that of an entry. -/
theorem mem_of_get? (h : entries.get? name = some value) : (name, value) ∈ entries := by
  induction entries with
  | nil => cases h
  | cons entry entries ih =>
    obtain ⟨key, content⟩ := entry
    rw [get?_cons] at h
    split at h
    · next heq =>
      cases h
      rw [heq]
      exact List.mem_cons_self
    · exact List.mem_cons_of_mem _ (ih h)

theorem get?_set_self (entries : Entries α) (name : Text) (value : α) :
    (entries.set name value).get? name = some value := by
  induction entries with
  | nil => rw [set, get?_cons, if_pos rfl]
  | cons entry entries ih =>
    obtain ⟨key, content⟩ := entry
    rw [set]
    split
    · rw [get?_cons, if_pos rfl]
    · next hne => rw [get?_cons, if_neg (Ne.symm hne), ih]

theorem get?_set_of_ne (entries : Entries α) (value : α) (h : other ≠ name) :
    (entries.set name value).get? other = entries.get? other := by
  induction entries with
  | nil => rw [set, get?_cons, if_neg h]
  | cons entry entries ih =>
    obtain ⟨key, content⟩ := entry
    rw [set]
    split
    · next heq =>
      obtain rfl : key = name := heq
      rw [get?_cons, get?_cons, if_neg h, if_neg h]
    · rw [get?_cons, get?_cons, ih]

/-- An entry was there before or is the one that was set. -/
theorem mem_of_mem_set {entry : Text × α} (h : entry ∈ entries.set name value) :
    entry = (name, value) ∨ entry ∈ entries := by
  induction entries with
  | nil => exact .inl (List.mem_singleton.1 h)
  | cons first entries ih =>
    rw [set] at h
    split at h
    · exact (List.mem_cons.1 h).imp_right (List.mem_cons_of_mem _)
    · rcases List.mem_cons.1 h with rfl | h
      · exact .inr List.mem_cons_self
      · exact (ih h).imp_right (List.mem_cons_of_mem _)

/-- A name that is not there comes last. -/
theorem names_set (entries : Entries α) (name : Text) (value : α) :
    (entries.set name value).names =
      if name ∈ entries.names then entries.names else entries.names ++ [name] := by
  induction entries with
  | nil => rfl
  | cons entry entries ih =>
    obtain ⟨key, content⟩ := entry
    by_cases h : key = name
    · simp [set, h]
    · have hne : name ≠ key := Ne.symm h
      have hset : set ((key, content) :: entries) name value =
          (key, content) :: set entries name value := if_neg h
      rw [hset, names_cons, names_cons, ih]
      by_cases hmem : name ∈ names entries <;> simp [hmem, hne]

/-- The value that is set last counts. -/
theorem set_set (entries : Entries α) (name : Text) (value value' : α) :
    (entries.set name value).set name value' = entries.set name value' := by
  induction entries with
  | nil => simp [set]
  | cons entry entries ih =>
    by_cases h : entry.1 = name
    · simp [set, h]
    · simp [set, h, ih]

/-- Values of two names can be set in either order, if one of the names is there already. -/
theorem set_comm (h : other ≠ name) (hmem : other ∈ entries.names) (value value' : α) :
    (entries.set name value).set other value' = (entries.set other value').set name value := by
  induction entries with
  | nil => cases hmem
  | cons entry entries ih =>
    obtain ⟨key, content⟩ := entry
    by_cases hname : key = name
    · subst hname
      simp [set, h.symm]
    · by_cases hother : key = other
      · subst hother
        simp [set, h]
      · have hlater : other ∈ names entries :=
          (List.mem_cons.1 hmem).resolve_left (Ne.symm hother)
        simp [set, hname, hother, ih hlater]

/-- A value is set in its place. -/
theorem set_append_cons {before after : Entries α} (hfresh : name ∉ before.names)
    (value value' : α) :
    set (before ++ (name, value) :: after) name value' = before ++ (name, value') :: after := by
  induction before with
  | nil => simp [set]
  | cons entry before ih =>
    obtain ⟨hne, hlater⟩ := List.ne_and_not_mem_of_not_mem_cons hfresh
    rw [List.cons_append, set, if_neg (Ne.symm hne), ih hlater, List.cons_append]

end MarkupBinding.Entries
