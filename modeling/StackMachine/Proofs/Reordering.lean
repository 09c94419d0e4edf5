import Mathlib.Data.Fintype.Basic
import Mathlib.Logic.Equiv.Basic
import Mathlib.Tactic.FinCases
import StackMachine.Proofs.TableHistory

namespace StackMachine

namespace KindTable

variable {α : Type} {p q : List (Access α)}

/-- Another order of calls, in which the calls on each kind keep their order. -/
structure Reordering (p q : List (Access α)) where
  place : Fin p.length ≃ Fin q.length
  call : ∀ n, q.get (place n) = p.get n
  order : ∀ m n, (p.get m).kind = (p.get n).kind → m < n → place m < place n

theorem lookup_writes_singleton {a : Access α} {k : Kind} {value : α} :
    (writes [a]).lookup k = some value ↔ a = .getOrInit k value := by
  cases a with
  | get j =>
    have hnone : writes [.get j] = ([] : List (Kind × α)) := rfl
    simp [hnone]
  | getOrInit j other =>
    by_cases hj : k = j
    · subst hj
      simp [writes, Access.write?]
    · rw [lookup_writes_singleton_of_ne hj]
      simp [Ne.symm hj]

theorem value_after_take_iff (p : List (Access α)) (b : Nat) (k : Kind) (value : α) :
    ((empty.after (p.take b)).get? k).map Shared.value = some value ↔
      ∃ n < b, p[n]? = some (.getOrInit k value) ∧ FirstAt p n := by
  induction b with
  | zero => simp [after]
  | succ b ih =>
    cases hb : p[b]? with
    | none =>
      rw [List.take_add_one, hb, Option.toList_none, List.append_nil, ih]
      constructor
      · rintro ⟨n, hn, h⟩
        exact ⟨n, by omega, h⟩
      · rintro ⟨n, hn, hwrite, hfirst⟩
        have hne : n ≠ b := by
          rintro rfl
          rw [hb] at hwrite
          cases hwrite
        exact ⟨n, by omega, hwrite, hfirst⟩
    | some a =>
      have hafter : empty.after (p.take (b + 1)) = ((empty.after (p.take b)).access a).table := by
        rw [List.take_add_one, hb, after, Option.toList_some, List.foldl_append]
        rfl
      rw [hafter, get?_access, Option.or_eq_some_iff, ih, lookup_writes_singleton,
        Option.map_eq_none_iff, get?_after_empty_eq_none_iff]
      constructor
      · rintro (⟨n, hn, h⟩ | ⟨hnone, rfl⟩)
        · exact ⟨n, by omega, h⟩
        · exact ⟨b, by omega, hb, k, value, hb, hnone⟩
      · rintro ⟨n, hn, hwrite, hfirst⟩
        by_cases hnb : n = b
        · subst hnb
          obtain ⟨j, other, hj, hnone⟩ := hfirst
          rw [hwrite] at hb hj
          cases hb
          cases hj
          exact .inr ⟨hnone, rfl⟩
        · exact .inl ⟨n, by omega, hwrite, hfirst⟩

theorem returned_at (p : List (Access α)) (n : Fin p.length) :
    (empty.replies p)[n.val]?.bind Reply.returned =
      (empty.after (p.take (n + 1))).get? (p.get n).kind := by
  have hreply := replies_getElem? empty p n
  rw [List.getElem?_eq_getElem n.isLt, Option.map_some] at hreply
  obtain ⟨a, ha, -, htable⟩ := access_at hreply
  rw [hreply, Option.bind_some, returned_access, htable]
  rfl

namespace Reordering

theorem lt_of_place_lt (r : Reordering p q) {m n : Fin p.length}
    (hkind : (p.get m).kind = (p.get n).kind) (h : r.place m < r.place n) : m < n := by
  rcases Nat.lt_trichotomy m n with hlt | heq | hgt
  · exact hlt
  · rw [Fin.ext heq] at h
    exact absurd h (Nat.lt_irrefl _)
  · exact absurd h (Nat.lt_asymm (r.order n m hkind.symm hgt))

def symm (r : Reordering p q) : Reordering q p where
  place := r.place.symm
  call := by
    intro n
    rw [← r.call, Equiv.apply_symm_apply]
  order := by
    intro m n hkind h
    apply r.lt_of_place_lt
    · rw [← r.call, ← r.call, Equiv.apply_symm_apply, Equiv.apply_symm_apply]
      exact hkind
    · rw [Equiv.apply_symm_apply, Equiv.apply_symm_apply]
      exact h

theorem getElem?_place (r : Reordering p q) {n : Fin p.length} {a : Access α}
    (h : p[n.val]? = some a) : q[(r.place n).val]? = some a := by
  rw [List.getElem?_eq_getElem n.isLt] at h
  rw [List.getElem?_eq_getElem (r.place n).isLt, ← h]
  exact congrArg some (r.call n)

theorem firstAt (r : Reordering p q) {n : Fin p.length} (h : FirstAt p n) :
    FirstAt q (r.place n) := by
  obtain ⟨k, value, hwrite, hnone⟩ := h
  refine ⟨k, value, r.getElem?_place hwrite, ?_⟩
  intro other hmem
  -- an earlier write in the new order was an earlier one in the old order too
  obtain ⟨j, hj, hother⟩ := List.mem_take_iff_getElem.mp hmem
  let m := r.symm.place ⟨j, by omega⟩
  have hm : p.get m = .getOrInit k other := (r.symm.call _).trans hother
  have hn : p.get n = .getOrInit k value := (List.getElem?_eq_some_iff.mp hwrite).2
  have hplace : r.place m = ⟨j, by omega⟩ := r.place.apply_symm_apply _
  have hlt : m < n := by
    apply r.lt_of_place_lt
    · rw [hm, hn]
      rfl
    · rw [hplace]
      exact Nat.lt_of_lt_of_le hj (Nat.min_le_left _ _)
  exact hnone other (List.mem_take_iff_getElem.mpr ⟨m, by omega, hm⟩)

theorem value_after_take (r : Reordering p q) {b c : Nat} {k : Kind} {value : α}
    (hbc : ∀ n : Fin p.length, (p.get n).kind = k → n < b → r.place n < c)
    (h : ((empty.after (p.take b)).get? k).map Shared.value = some value) :
    ((empty.after (q.take c)).get? k).map Shared.value = some value := by
  obtain ⟨n, hn, hwrite, hfirst⟩ := (value_after_take_iff p b k value).mp h
  obtain ⟨hlt, hget⟩ := List.getElem?_eq_some_iff.mp hwrite
  have hkind : (p.get ⟨n, hlt⟩).kind = k := congrArg Access.kind hget
  exact (value_after_take_iff q c k value).mpr
    ⟨r.place ⟨n, hlt⟩, hbc _ hkind hn, r.getElem?_place hwrite, r.firstAt hfirst⟩

theorem value_after_of_some (r : Reordering p q) {k : Kind} {value : α}
    (h : ((empty.after p).get? k).map Shared.value = some value) :
    ((empty.after q).get? k).map Shared.value = some value := by
  rw [← List.take_length (l := p)] at h
  rw [← List.take_length (l := q)]
  apply r.value_after_take _ h
  intro n _ _
  exact (r.place n).isLt

theorem value_after (r : Reordering p q) (k : Kind) :
    ((empty.after p).get? k).map Shared.value = ((empty.after q).get? k).map Shared.value := by
  apply Option.ext
  intro value
  exact ⟨r.value_after_of_some, r.symm.value_after_of_some⟩

theorem value_returned_of_some (r : Reordering p q) {n : Fin p.length} {value : α}
    (h : ((empty.replies p)[n.val]?.bind Reply.returned).map Shared.value = some value) :
    ((empty.replies q)[(r.place n).val]?.bind Reply.returned).map Shared.value = some value := by
  rw [returned_at] at h ⊢
  rw [r.call]
  apply r.value_after_take _ h
  intro m hkind hm
  by_cases hmn : m = n
  · subst hmn
    exact Nat.lt_succ_self _
  · have hlt : m < n := Nat.lt_of_le_of_ne (Nat.le_of_lt_succ hm) (Fin.val_ne_of_ne hmn)
    exact Nat.lt_succ_of_lt (r.order m n hkind hlt)

theorem value_returned (r : Reordering p q) (n : Fin p.length) :
    ((empty.replies p)[n.val]?.bind Reply.returned).map Shared.value =
      ((empty.replies q)[(r.place n).val]?.bind Reply.returned).map Shared.value := by
  apply Option.ext
  intro value
  constructor
  · exact r.value_returned_of_some
  · intro h
    have hback := r.symm.value_returned_of_some h
    rwa [symm, Equiv.symm_apply_apply] at hback

theorem size_after (r : Reordering p q) : (empty.after p).size = (empty.after q).size := by
  have hpublished : (empty.after p).published = (empty.after q).published := by
    ext k
    rw [mem_published, mem_published, ← Option.isSome_map (f := Shared.value), r.value_after,
      Option.isSome_map]
  rw [size_eq_card_published, size_eq_card_published, hpublished]

theorem layout_after (r : Reordering p q) (part : α → Layout) :
    (empty.after p).layout part = (empty.after q).layout part := by
  rw [layout_after_empty, layout_after_empty]
  simp only [← get?_after_empty, r.value_after]

end Reordering

theorem reordered_calls_agree (r : Reordering p q) :
    (∀ n : Fin p.length, ((empty.replies p)[n.val]?.bind Reply.returned).map Shared.value =
      ((empty.replies q)[(r.place n).val]?.bind Reply.returned).map Shared.value) ∧
    (∀ k, ((empty.after p).get? k).map Shared.value = ((empty.after q).get? k).map Shared.value) ∧
    (empty.after p).size = (empty.after q).size ∧
    (empty.after p).isEmpty = (empty.after q).isEmpty ∧
    ((empty.replies p).map Reply.builds).sum = ((empty.replies q).map Reply.builds).sum ∧
    ∀ (part : α → Layout) (pretty : Bool),
      ((empty.after p).layout part).render pretty = ((empty.after q).layout part).render pretty := by
  have hsize := r.size_after
  refine ⟨r.value_returned, r.value_after, hsize, ?_, ?_, ?_⟩
  · rw [isEmpty, isEmpty, hsize]
  · have hp := (size_after empty p).1
    have hq := (size_after empty q).1
    omega
  · intro part pretty
    rw [r.layout_after]

theorem reordered_calls_agree_swapped :
    let p : List (Access Int) := [.get .int8, .getOrInit .uint64 (-1), .getOrInit .int8 5, .get .uint64]
    let q : List (Access Int) := [.getOrInit .uint64 (-1), .get .int8, .getOrInit .int8 5, .get .uint64]
    ∃ r : Reordering p q, r.place 0 = 1 ∧
      ((empty.replies q)[1]?.bind Reply.returned).map Shared.value = none ∧
      (empty.after p).get? .int8 = some ⟨1, 5⟩ ∧
      ((empty.after q).get? .int8).map Shared.value = some 5 ∧
      ((empty.after q).layout (fun x => .atom (Int.repr x))).render false = "\x7bInt8: 5, UInt64: -1\x7d" := by
  intro p q
  let r : Reordering p q := {
    place := Equiv.swap (0 : Fin 4) 1
    call := by
      intro (n : Fin 4)
      fin_cases n <;> rfl
    order := by decide }
  obtain ⟨hreturned, hslots, -, -, -, htext⟩ := reordered_calls_agree r
  refine ⟨r, rfl, (hreturned 0).symm, rfl, (hslots .int8).symm, ?_⟩
  rw [← htext]
  decide

end KindTable

end StackMachine
