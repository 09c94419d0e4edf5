import Mathlib.Data.Finset.Card
import Mathlib.Logic.Relation
import Mathlib.Tactic.IntervalCases
import StackMachine.Registry

namespace StackMachine

namespace KindTable

variable {α : Type} {t u : KindTable α} {k : Kind}

theorem toList_slots (t : KindTable α) : t.slots.toList = Kind.all.map t.get? := by
  apply List.ext_getElem
  · simp [Kind.length_all]
  · intro n hn hn'
    have hlt : n < Kind.count := by simpa using hn
    interval_cases n <;> rfl

def published (t : KindTable α) : Finset Kind :=
  Kind.all.toFinset.filter (fun k => (t.get? k).isSome)

theorem mem_published : k ∈ t.published ↔ (t.get? k).isSome := by
  simp [published, Kind.mem_all]

theorem size_eq_card_published (t : KindTable α) : t.size = t.published.card := by
  have hnodup : (Kind.all.filter (fun k => (t.get? k).isSome)).Nodup :=
    List.Nodup.filter _ (by decide)
  rw [published, ← List.toFinset_filter, List.toFinset_card_of_nodup hnodup, size, toList_slots,
    List.countP_map, List.countP_eq_length_filter]
  rfl

theorem published_publish (t : KindTable α) (k : Kind) (value : α) :
    (t.publish k value).2.published = insert k t.published := by
  ext j
  rw [mem_published, Finset.mem_insert, mem_published]
  by_cases hj : j = k
  · subst hj
    simp
  · rw [get?_publish_of_ne t value hj]
    simp [hj]

theorem size_publish (h : t.get? k = none) (value : α) : (t.publish k value).2.size = t.size + 1 := by
  have hk : k ∉ t.published := by simp [mem_published, h]
  rw [size_eq_card_published, size_eq_card_published, published_publish,
    Finset.card_insert_of_notMem hk]

def Publishes (t u : KindTable α) : Prop :=
  ∃ k value, t.get? k = none ∧ u = (t.publish k value).2

def Grows : KindTable α → KindTable α → Prop :=
  Relation.ReflTransGen Publishes

structure Numbered (t : KindTable α) : Prop where
  lt_size : ∀ k x, t.get? k = some x → x.id < t.size
  inj : ∀ j k x y, t.get? j = some x → t.get? k = some y → x.id = y.id → j = k

theorem Numbered.empty : (empty : KindTable α).Numbered := by
  constructor
  · intro k x hx
    simp at hx
  · intro j k x y hx
    simp at hx

theorem Publishes.numbered (h : t.Publishes u) (ht : t.Numbered) : u.Numbered := by
  obtain ⟨k, value, hk, rfl⟩ := h
  have hsize := size_publish hk value
  -- the new identity is the old size, so it is above all the others
  have hslot (j : Kind) (x : Shared α) (hx : (t.publish k value).2.get? j = some x) :
      j = k ∧ x.id = t.size ∨ t.get? j = some x ∧ x.id < t.size := by
    by_cases hj : j = k
    · subst hj
      rw [get?_publish_self] at hx
      cases hx
      exact .inl ⟨rfl, rfl⟩
    · rw [get?_publish_of_ne t value hj] at hx
      exact .inr ⟨hx, ht.lt_size j x hx⟩
  constructor
  · intro j x hx
    rcases hslot j x hx with ⟨-, hid⟩ | ⟨-, hid⟩ <;> omega
  · intro i j x y hx hy hid
    rcases hslot i x hx with ⟨rfl, hi⟩ | ⟨hi, hxid⟩
    · rcases hslot j y hy with ⟨rfl, -⟩ | ⟨-, hyid⟩
      · rfl
      · omega
    · rcases hslot j y hy with ⟨-, hyid⟩ | ⟨hj, -⟩
      · omega
      · exact ht.inj i j x y hi hj hid

theorem Publishes.get? {x : Shared α} (h : t.Publishes u) (hx : t.get? k = some x) :
    u.get? k = some x := by
  obtain ⟨j, value, hj, rfl⟩ := h
  have hne : k ≠ j := by
    rintro rfl
    rw [hj] at hx
    cases hx
  rw [get?_publish_of_ne t value hne, hx]

theorem Grows.numbered (h : t.Grows u) (ht : t.Numbered) : u.Numbered := by
  induction h with
  | refl => exact ht
  | tail _ hstep ih => exact hstep.numbered ih

theorem Grows.get? {x : Shared α} (h : t.Grows u) (hx : t.get? k = some x) : u.get? k = some x := by
  induction h with
  | refl => exact hx
  | tail _ hstep ih => exact hstep.get? ih

end KindTable

end StackMachine
