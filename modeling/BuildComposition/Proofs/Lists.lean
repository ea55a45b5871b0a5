/-!
# Places in lists

What is at a place of a list that was put together from parts is at a place of one of the parts, and
what comes first in the list comes first in one of the parts.

## Main definitions

* `ComesFirst a b xs`: `a` is in a list, and `b` is not before it

## Main results

* `append_eq_append_cons`: an element of two lists is in the first or in the second
* `exists_of_append_eq`: an element that is in neither end of a list is in the middle
* `comesFirst_append_iff`: what comes first in two lists
* `pair_sublist_iff`: of two elements of a list without repetition one comes first
-/

namespace BuildComposition

variable {α : Type}

/-- An element of two lists is in the first or in the second. -/
theorem append_eq_append_cons {xs ys before after : List α} {a : α}
    (h : xs ++ ys = before ++ a :: after) :
    (∃ rest, xs = before ++ a :: rest ∧ after = rest ++ ys) ∨
      ∃ done, before = xs ++ done ∧ ys = done ++ a :: after := by
  rcases List.append_eq_append_iff.mp h with ⟨done, hbefore, hys⟩ | ⟨rest, hxs, hrest⟩
  · exact .inr ⟨done, hbefore, hys⟩
  · cases rest with
    | nil => exact .inr ⟨[], by rw [hxs, List.append_nil, List.append_nil], hrest.symm⟩
    | cons b rest =>
      cases hrest
      exact .inl ⟨rest, hxs, rfl⟩

/-- An element that is in neither end of a list is in the middle. -/
theorem exists_of_append_eq {first middle last left right : List α} {a : α}
    (h : first ++ middle ++ last = left ++ a :: right) (hfirst : a ∉ first) (hlast : a ∉ last) :
    ∃ done rest, middle = done ++ a :: rest ∧ left = first ++ done := by
  rcases append_eq_append_cons h with ⟨rest, h, -⟩ | ⟨done, -, rfl⟩
  · rcases append_eq_append_cons h with ⟨rest, rfl, -⟩ | ⟨done, hleft, hmiddle⟩
    · simp at hfirst
    · exact ⟨done, rest, hmiddle, hleft⟩
  · simp at hlast

/-- The element `a` is in a list, and `b` is not before it. -/
def ComesFirst (a b : α) (xs : List α) : Prop :=
  ∃ before after, xs = before ++ a :: after ∧ b ∉ before

theorem not_comesFirst_nil (a b : α) : ¬ComesFirst a b [] := by
  rintro ⟨before, after, h, -⟩
  simp at h

theorem comesFirst_of_mem {a b : α} {xs : List α} (ha : a ∈ xs) (hb : b ∉ xs) :
    ComesFirst a b xs := by
  obtain ⟨before, after, rfl⟩ := List.append_of_mem ha
  exact ⟨before, after, rfl, fun h => hb (List.mem_append_left _ h)⟩

theorem comesFirst_append_iff {a b : α} {xs ys : List α} :
    ComesFirst a b (xs ++ ys) ↔ ComesFirst a b xs ∨ b ∉ xs ∧ ComesFirst a b ys := by
  constructor
  · rintro ⟨before, after, h, hb⟩
    rcases append_eq_append_cons h with ⟨rest, hxs, -⟩ | ⟨done, rfl, hys⟩
    · exact .inl ⟨before, rest, hxs, hb⟩
    · rw [List.mem_append, not_or] at hb
      exact .inr ⟨hb.1, done, after, hys, hb.2⟩
  · rintro (⟨before, after, rfl, hb⟩ | ⟨hb, before, after, rfl, hb'⟩)
    · exact ⟨before, after ++ ys, by simp, hb⟩
    · exact ⟨xs ++ before, after, by simp, by simp [hb, hb']⟩

theorem comesFirst_cons_iff {a b x : α} {xs : List α} :
    ComesFirst a b (x :: xs) ↔ x = a ∨ x ≠ b ∧ ComesFirst a b xs := by
  have hone : ComesFirst a b [x] ↔ x = a := by
    constructor
    · rintro ⟨before, after, h, -⟩
      rw [List.singleton_eq_append_iff] at h
      rcases h with ⟨-, h⟩ | ⟨-, h⟩
      · exact (List.cons.inj h).1.symm
      · cases h
    · rintro rfl
      exact ⟨[], [], rfl, by simp⟩
  rw [← List.singleton_append, comesFirst_append_iff, hone, List.mem_singleton, eq_comm (a := b)]

/-- Of two elements of a list without repetition, one is before the other exactly if it comes first. -/
theorem pair_sublist_iff {a b : α} (hne : a ≠ b) {xs : List α} (hnodup : xs.Nodup) :
    [a, b].Sublist xs ↔ b ∈ xs ∧ ComesFirst a b xs := by
  constructor
  · intro h
    obtain ⟨front, back, rfl, ha, hb⟩ := List.cons_sublist_iff.mp h
    have hb := List.singleton_sublist.mp hb
    have hfront : b ∉ front := fun h => (List.nodup_append.mp hnodup).2.2 b h b hb rfl
    obtain ⟨before, after, rfl⟩ := List.append_of_mem ha
    exact ⟨List.mem_append_right _ hb, before, after ++ back, by simp,
      fun h => hfront (List.mem_append_left _ h)⟩
  · rintro ⟨hmem, before, after, rfl, hb⟩
    have hafter : b ∈ after := by simpa [hb, hne.symm] using hmem
    exact (List.cons_sublist_cons.mpr (List.singleton_sublist.mpr hafter)).trans
      (List.sublist_append_right before _)

end BuildComposition
