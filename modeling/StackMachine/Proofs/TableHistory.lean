import Mathlib.Algebra.BigOperators.Group.List.Basic
import Mathlib.Data.List.Basic
import StackMachine.Proofs.TableGrowth

/-!
In every history of calls, a slot holds what was first written to it, and only first writes build,
publish and report anything.
-/

namespace StackMachine

namespace KindTable

variable {α : Type}

inductive Access (α : Type) where
  | get (kind : Kind)
  | getOrInit (kind : Kind) (value : α)

namespace Access

def kind : Access α → Kind
  | get k => k
  | getOrInit k _ => k

def write? : Access α → Option (Kind × α)
  | get _ => none
  | getOrInit k value => some (k, value)

end Access

def writes (accesses : List (Access α)) : List (Kind × α) :=
  accesses.filterMap Access.write?

theorem writes_append (p q : List (Access α)) : writes (p ++ q) = writes p ++ writes q :=
  List.filterMap_append

def FirstAt (accesses : List (Access α)) (n : Nat) : Prop :=
  ∃ k value, accesses[n]? = some (.getOrInit k value) ∧
    ∀ other, .getOrInit k other ∉ accesses.take n

structure Reply (α : Type) where
  returned : Option (Shared α)
  table : KindTable α
  builds : Nat
  events : List Event

def counted (value : α) : StateM Nat α := do
  modify (· + 1)
  return value

def access (t : KindTable α) : Access α → Reply α
  | .get k => ⟨t.get? k, t, 0, []⟩
  | .getOrInit k value =>
    let (found, builds) := (t.getOrInit k (counted value)).run 0
    ⟨some found.shared, found.table, builds, found.events⟩

def after (t : KindTable α) (accesses : List (Access α)) : KindTable α :=
  accesses.foldl (fun t a => (t.access a).table) t

def replies (t : KindTable α) : List (Access α) → List (Reply α)
  | [] => []
  | a :: rest => t.access a :: (t.access a).table.replies rest

variable {k : Kind}

theorem access_cases (t : KindTable α) (a : Access α) :
    (t.access a = ⟨t.get? a.kind, t, 0, []⟩ ∧ ∀ k value, a = .getOrInit k value → t.get? k ≠ none) ∨
    ∃ k value, a = .getOrInit k value ∧ t.get? k = none ∧
      t.access a = ⟨some ⟨t.size, value⟩, (t.publish k value).2, 1, [.published k]⟩ := by
  cases a with
  | get k =>
    refine .inl ⟨rfl, ?_⟩
    intro j value h
    cases h
  | getOrInit k value =>
    cases hk : t.get? k with
    | none =>
      refine .inr ⟨k, value, rfl, hk, ?_⟩
      simp only [access, getOrInit, hk]
      rfl
    | some x =>
      refine .inl ⟨?_, ?_⟩
      · simp only [access, getOrInit, Access.kind, hk]
        rfl
      · rintro _ _ ⟨⟩
        simp [hk]

theorem lookup_writes_singleton_of_ne {j k : Kind} (h : k ≠ j) (value : α) :
    (writes [.getOrInit j value]).lookup k = none := by
  simp [writes, Access.write?, List.lookup_cons, beq_false_of_ne h]

theorem get?_access (t : KindTable α) (a : Access α) (k : Kind) :
    ((t.access a).table.get? k).map Shared.value =
      ((t.get? k).map Shared.value).or ((writes [a]).lookup k) := by
  rcases t.access_cases a with ⟨h, hfull⟩ | ⟨j, value, rfl, hj, h⟩
  · rw [h]
    cases a with
    | get j => exact (Option.or_none).symm
    | getOrInit j value =>
      by_cases hk : k = j
      · subst hk
        obtain ⟨x, hx⟩ := Option.ne_none_iff_exists'.mp (hfull k value rfl)
        rw [hx, Option.map_some, Option.some_or]
      · rw [lookup_writes_singleton_of_ne hk, Option.or_none]
  · rw [h]
    by_cases hk : k = j
    · subst hk
      simp [hj, writes, Access.write?]
    · rw [get?_publish_of_ne t value hk, lookup_writes_singleton_of_ne hk, Option.or_none]

theorem get?_after (t : KindTable α) (accesses : List (Access α)) (k : Kind) :
    ((t.after accesses).get? k).map Shared.value =
      ((t.get? k).map Shared.value).or ((writes accesses).lookup k) := by
  induction accesses generalizing t with
  | nil => simp [after, writes]
  | cons a rest ih =>
    have hwrites : writes (a :: rest) = writes [a] ++ writes rest := writes_append [a] rest
    rw [after, List.foldl_cons, ← after, ih, get?_access, hwrites, List.lookup_append, Option.or_assoc]

theorem returned_access (t : KindTable α) (a : Access α) :
    (t.access a).returned = (t.access a).table.get? a.kind := by
  rcases t.access_cases a with ⟨h, -⟩ | ⟨k, value, rfl, -, h⟩
  · rw [h]
  · rw [h, Access.kind, get?_publish_self]

theorem grows_access (t : KindTable α) (a : Access α) : t.Grows (t.access a).table := by
  rcases t.access_cases a with ⟨h, -⟩ | ⟨k, value, rfl, hk, h⟩
  · rw [h]
    exact .refl
  · rw [h]
    exact .single ⟨k, value, hk, rfl⟩

theorem grows_after (t : KindTable α) (accesses : List (Access α)) : t.Grows (t.after accesses) := by
  induction accesses generalizing t with
  | nil => exact .refl
  | cons a rest ih => exact (grows_access t a).trans (ih _)

theorem size_access (t : KindTable α) (a : Access α) :
    (t.access a).table.size = t.size + (t.access a).builds ∧
      (t.access a).events.length = (t.access a).builds := by
  rcases t.access_cases a with ⟨h, -⟩ | ⟨k, value, rfl, hk, h⟩
  · rw [h]
    exact ⟨rfl, rfl⟩
  · rw [h]
    exact ⟨size_publish hk value, rfl⟩

theorem size_after (t : KindTable α) (accesses : List (Access α)) :
    (t.after accesses).size = t.size + ((t.replies accesses).map Reply.builds).sum ∧
      ((t.replies accesses).flatMap Reply.events).length =
        ((t.replies accesses).map Reply.builds).sum := by
  induction accesses generalizing t with
  | nil => exact ⟨rfl, rfl⟩
  | cons a rest ih =>
    obtain ⟨hsize, hevents⟩ := size_access t a
    obtain ⟨hrest, hflat⟩ := ih (t := (t.access a).table)
    rw [after, List.foldl_cons, ← after, replies, List.map_cons, List.sum_cons, List.flatMap_cons,
      List.length_append]
    omega

theorem length_replies (t : KindTable α) (accesses : List (Access α)) :
    (t.replies accesses).length = accesses.length := by
  induction accesses generalizing t with
  | nil => rfl
  | cons a rest ih => rw [replies, List.length_cons, ih, List.length_cons]

theorem replies_getElem? (t : KindTable α) (accesses : List (Access α)) (n : Nat) :
    (t.replies accesses)[n]? = accesses[n]?.map (t.after (accesses.take n)).access := by
  induction accesses generalizing t n with
  | nil => rfl
  | cons a rest ih =>
    cases n with
    | zero => rfl
    | succ n => exact ih (t.access a).table n

theorem mem_writes {accesses : List (Access α)} {value : α} :
    (k, value) ∈ writes accesses ↔ .getOrInit k value ∈ accesses := by
  rw [writes, List.mem_filterMap]
  constructor
  · rintro ⟨a, ha, hw⟩
    cases a with
    | get j => cases hw
    | getOrInit j other =>
      cases hw
      exact ha
  · intro h
    exact ⟨_, h, rfl⟩

theorem get?_after_empty (accesses : List (Access α)) (k : Kind) :
    ((empty.after accesses).get? k).map Shared.value = (writes accesses).lookup k := by
  rw [get?_after, get?_empty, Option.map_none, Option.none_or]

theorem get?_after_empty_eq_none_iff (accesses : List (Access α)) (k : Kind) :
    (empty.after accesses).get? k = none ↔ ∀ value, .getOrInit k value ∉ accesses := by
  rw [← Option.map_eq_none_iff, get?_after_empty, List.lookup_eq_none_iff]
  constructor
  · intro h value hmem
    have hk := h (k, value) (mem_writes.mpr hmem)
    simp at hk
  · rintro h ⟨j, value⟩ hj
    apply bne_iff_ne.mpr
    rintro rfl
    exact h value (mem_writes.mp hj)

theorem published_after_empty (accesses : List (Access α)) :
    (empty.after accesses).published = ((writes accesses).map Prod.fst).toFinset := by
  ext k
  have hnone := get?_after_empty_eq_none_iff accesses k
  rw [mem_published, List.mem_toFinset, List.mem_map, Option.isSome_iff_ne_none, ne_eq, hnone]
  push Not
  constructor
  · rintro ⟨value, h⟩
    exact ⟨(k, value), mem_writes.mpr h, rfl⟩
  · rintro ⟨⟨j, value⟩, h, rfl⟩
    exact ⟨value, mem_writes.mp h⟩

theorem access_at {accesses : List (Access α)} {n : Nat} {reply : Reply α}
    (h : (empty.replies accesses)[n]? = some reply) :
    ∃ a, accesses[n]? = some a ∧ reply = (empty.after (accesses.take n)).access a ∧
      reply.table = empty.after (accesses.take (n + 1)) := by
  rw [replies_getElem?] at h
  obtain ⟨a, ha, rfl⟩ := Option.map_eq_some_iff.mp h
  refine ⟨a, ha, rfl, ?_⟩
  rw [List.take_add_one, ha, after, after, Option.toList_some, List.foldl_append]
  rfl

theorem builds_at {accesses : List (Access α)} {n : Nat} {reply : Reply α}
    (h : (empty.replies accesses)[n]? = some reply) :
    (FirstAt accesses n → reply.builds = 1 ∧
      ∃ k value, accesses[n]? = some (.getOrInit k value) ∧ reply.events = [.published k]) ∧
    (¬ FirstAt accesses n → reply.builds = 0 ∧ reply.events = []) := by
  obtain ⟨a, ha, rfl, -⟩ := access_at h
  rcases (empty.after (accesses.take n)).access_cases a with ⟨hsame, hfull⟩ | ⟨k, value, rfl, hk, hnew⟩
  · rw [hsame]
    refine ⟨?_, fun _ => ⟨rfl, rfl⟩⟩
    rintro ⟨k, value, hk, hnone⟩
    obtain rfl := Option.some.inj (ha.symm.trans hk)
    exact absurd ((get?_after_empty_eq_none_iff _ k).mpr hnone) (hfull k value rfl)
  · rw [hnew]
    have hfirst : FirstAt accesses n :=
      ⟨k, value, ha, (get?_after_empty_eq_none_iff _ k).mp hk⟩
    exact ⟨fun _ => ⟨rfl, k, value, ha, rfl⟩, fun hnot => absurd hfirst hnot⟩

theorem get?_of_returned {accesses : List (Access α)} {n : Nat} {a : Access α} {x : Shared α}
    (ha : accesses[n]? = some a)
    (hx : (empty.replies accesses)[n]?.bind Reply.returned = some x) :
    (empty.after accesses).get? a.kind = some x := by
  obtain ⟨reply, hreply, hreturned⟩ := Option.bind_eq_some_iff.mp hx
  obtain ⟨b, hb, rfl, htable⟩ := access_at hreply
  obtain rfl : a = b := Option.some.inj (ha.symm.trans hb)
  rw [returned_access, htable] at hreturned
  -- the calls that come later only add to the table
  have hgrows := grows_after (empty.after (accesses.take (n + 1))) (accesses.drop (n + 1))
  rw [after, after, ← List.foldl_append, List.take_append_drop] at hgrows
  exact hgrows.get? hreturned

theorem same_instance_iff {accesses : List (Access α)} {m n : Nat} {a b : Access α} {x y : Shared α}
    (ha : accesses[m]? = some a) (hb : accesses[n]? = some b)
    (hx : (empty.replies accesses)[m]?.bind Reply.returned = some x)
    (hy : (empty.replies accesses)[n]?.bind Reply.returned = some y) :
    (x.id = y.id ↔ a.kind = b.kind) ∧ (x = y ↔ a.kind = b.kind) := by
  have hxslot := get?_of_returned ha hx
  have hyslot := get?_of_returned hb hy
  have hnumbered := (grows_after empty accesses).numbered Numbered.empty
  have hkind (hid : x.id = y.id) : a.kind = b.kind := hnumbered.inj _ _ x y hxslot hyslot hid
  have heq (hk : a.kind = b.kind) : x = y := by
    rw [hk, hyslot] at hxslot
    exact (Option.some.inj hxslot).symm
  exact ⟨⟨hkind, fun hk => congrArg Shared.id (heq hk)⟩, ⟨fun h => hkind (congrArg Shared.id h), heq⟩⟩

theorem layout_after_empty (accesses : List (Access α)) (part : α → Layout) :
    (empty.after accesses).layout part = .map (Kind.all.filterMap (fun k =>
      ((writes accesses).lookup k).map (fun value => (k.name, part value)))) := by
  simp only [layout, entries, List.map_filterMap, ← get?_after_empty, Option.map_map]
  rfl

theorem first_write_wins (accesses : List (Access α)) :
    let table := empty.after accesses
    let replies := empty.replies accesses
    let kinds := ((writes accesses).map Prod.fst).toFinset
    (default : KindTable α) = empty ∧
    (∀ k, (table.get? k).map Shared.value = (writes accesses).lookup k) ∧
    replies.length = accesses.length ∧
    (∀ n k reply, accesses[n]? = some (.get k) → replies[n]? = some reply →
      reply.returned = (empty.after (accesses.take n)).get? k) ∧
    (∀ n k value reply, accesses[n]? = some (.getOrInit k value) → replies[n]? = some reply →
      reply.returned = (empty.after (accesses.take (n + 1))).get? k) ∧
    (∀ (m n : Nat) (a b : Access α) (x y : Shared α), accesses[m]? = some a → accesses[n]? = some b →
      replies[m]?.bind Reply.returned = some x → replies[n]?.bind Reply.returned = some y →
      (x.id = y.id ↔ a.kind = b.kind) ∧ (x = y ↔ a.kind = b.kind)) ∧
    (∀ n reply, replies[n]? = some reply →
      (FirstAt accesses n → reply.builds = 1 ∧
        ∃ k value, accesses[n]? = some (.getOrInit k value) ∧ reply.events = [.published k]) ∧
      (¬ FirstAt accesses n → reply.builds = 0 ∧ reply.events = [])) ∧
    (replies.map Reply.builds).sum = kinds.card ∧
    (replies.flatMap Reply.events).length = kinds.card ∧
    table.size = kinds.card ∧
    (table.isEmpty ↔ kinds.card = 0) ∧
    ∀ part : α → Layout, table.layout part = .map (Kind.all.filterMap (fun k =>
      ((writes accesses).lookup k).map (fun value => (k.name, part value)))) := by
  intro table replies kinds
  obtain ⟨hbuilds, hevents⟩ := size_after empty accesses
  have hempty : (empty : KindTable α).size = 0 := rfl
  have hsize : table.size = kinds.card := by
    rw [size_eq_card_published, published_after_empty]
  have hsum : (replies.map Reply.builds).sum = kinds.card := by
    rw [← hsize, hbuilds, hempty, Nat.zero_add]
  refine ⟨rfl, get?_after_empty accesses, ?_, ?_, ?_, ?_, ?_, hsum, hevents.trans hsum, hsize, ?_,
    layout_after_empty accesses⟩
  · exact length_replies empty accesses
  · intro n k reply hk hreply
    obtain ⟨a, ha, rfl, -⟩ := access_at hreply
    rw [hk] at ha
    cases ha
    rfl
  · intro n k value reply hk hreply
    obtain ⟨a, ha, rfl, htable⟩ := access_at hreply
    rw [hk] at ha
    cases ha
    rw [← htable, returned_access, Access.kind]
  · intro m n a b x y ha hb hx hy
    exact same_instance_iff ha hb hx hy
  · intro n reply hreply
    exact builds_at hreply
  · rw [isEmpty, hsize, beq_iff_eq]

theorem first_write_wins_uint64 :
    let accesses : List (Access Int) :=
      [.get .int8, .getOrInit .uint64 (-1), .getOrInit .int8 5, .getOrInit .uint64 7]
    ¬ FirstAt accesses 3 ∧
    ∃ first last, (empty.replies accesses)[1]? = some first ∧
      (empty.replies accesses)[3]? = some last ∧ last.builds = 0 ∧ last.events = [] ∧
      first.returned = some ⟨0, -1⟩ ∧ last.returned = first.returned ∧
      (empty.after accesses).size = 2 := by
  intro accesses
  obtain ⟨-, -, -, -, -, hsame, hbuilds, -, -, hsize, -, -⟩ := first_write_wins accesses
  have hlater : ¬ FirstAt accesses 3 := by
    rintro ⟨k, value, hk, hnone⟩
    cases hk
    exact hnone (-1) (by simp [accesses])
  obtain ⟨hzero, hnil⟩ := (hbuilds 3 _ rfl).2 hlater
  have hinstance := (hsame 3 1 _ _ _ ⟨0, -1⟩ rfl rfl rfl rfl).2.mpr rfl
  exact ⟨hlater, _, _, rfl, rfl, hzero, hnil, rfl, congrArg some hinstance, hsize.trans (by decide)⟩

end KindTable

end StackMachine
