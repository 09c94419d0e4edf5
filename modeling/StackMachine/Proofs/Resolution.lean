import StackMachine.Proofs.Calls
import StackMachine.Proofs.TableGrowth

namespace StackMachine

namespace StaticType

theorem numericKind?_eq_some_iff {t : StaticType} {k : Kind} :
    t.numericKind? = some k ↔ t.core = .ofKind k := by
  induction t with
  | primitive base => cases base <;> simp [numericKind?, core, ofKind]
  | object name => simp [numericKind?, core, ofKind]
  | enumeration name t ih => exact ih
  | nullable t ih => exact ih

theorem numericKind?_eq_none_iff {t : StaticType} :
    t.numericKind? = none ↔ ∀ k, t.core ≠ .ofKind k := by
  rw [Option.eq_none_iff_forall_ne_some]
  apply forall_congr'
  intro k
  rw [ne_eq, numericKind?_eq_some_iff]

end StaticType

namespace Registry

inductive Later (r : Registry) : Registry → Prop
  | refl : Later r r
  | forKind {s : Registry} (k : Kind) (h : Later r s) : Later r (s.forKind k).table
  | create {s : Registry} (t : StaticType) (h : Later r s) : Later r (s.create t).registry

variable {r s : Registry} {j k : Kind} {t u : StaticType}

theorem create_of_core (r : Registry) (h : t.core = .ofKind k) :
    r.create t = ⟨.ok (r.forKind k).shared, (r.forKind k).table, (r.forKind k).events⟩ := by
  rw [create, StaticType.numericKind?_eq_some_iff.mpr h]

theorem create_of_no_core (r : Registry) (h : ∀ k, t.core ≠ .ofKind k) :
    r.create t = ⟨.error (.unsupported "RightShift" t), r, [.unresolved "RightShift" t]⟩ := by
  rw [create, StaticType.numericKind?_eq_none_iff.mpr h]
  rfl

theorem exists_core_of_create {x : Shared RightShift} (h : (r.create t).outcome = .ok x) :
    ∃ k, t.core = .ofKind k ∧ x = (r.forKind k).shared := by
  by_contra hnot
  push Not at hnot
  have hcore (k : Kind) : t.core ≠ .ofKind k := by
    intro hk
    rw [create_of_core r hk] at h
    cases h
    exact hnot k hk rfl
  rw [create_of_no_core r hcore] at h
  cases h

theorem grows_forKind (r : Registry) (k : Kind) : r.Grows (r.forKind k).table := by
  cases hk : r.get? k with
  | none =>
    rw [forKind_of_none hk]
    exact .single ⟨k, ⟨k⟩, hk, rfl⟩
  | some shared =>
    rw [forKind_of_some hk]
    exact .refl

theorem grows_create (r : Registry) (t : StaticType) : r.Grows (r.create t).registry := by
  rw [create]
  cases t.numericKind? with
  | none => exact .refl
  | some k => exact grows_forKind r k

theorem Later.grows (h : r.Later s) : r.Grows s := by
  induction h with
  | refl => exact .refl
  | forKind k _ ih => exact ih.trans (grows_forKind _ k)
  | create t _ ih => exact ih.trans (grows_create _ t)

theorem Reachable.later (h : r.Reachable) : Later KindTable.empty r := by
  induction h with
  | empty => exact .refl
  | forKind k _ ih => exact ih.forKind k
  | create t _ ih => exact ih.create t

theorem Reachable.numbered (h : r.Reachable) : r.Numbered :=
  h.later.grows.numbered .empty

theorem Later.forKind_eq (h : Later (r.forKind k).table s) :
    s.forKind k = ⟨(r.forKind k).shared, s, []⟩ :=
  forKind_of_some (h.grows.get? (get?_forKind r k))

theorem Later.id_eq_iff (hr : r.Reachable) (h : Later (r.forKind j).table s) :
    (r.forKind j).shared.id = (s.forKind k).shared.id ↔ j = k := by
  have hj : (s.forKind k).table.get? j = some (r.forKind j).shared :=
    (grows_forKind s k).get? (h.grows.get? (get?_forKind r j))
  have hk : (s.forKind k).table.get? k = some (s.forKind k).shared := get?_forKind s k
  have hnumbered : (s.forKind k).table.Numbered :=
    (grows_forKind s k).numbered (h.grows.numbered (hr.forKind j).numbered)
  constructor
  · intro hid
    exact hnumbered.inj j k _ _ hj hk hid
  · rintro rfl
    rw [hj] at hk
    rw [Option.some.inj hk]

end Registry

theorem create_resolves_core (r : Registry) (hr : r.Reachable) :
    (∀ t : StaticType, (∃ x, (r.create t).outcome = .ok x) ↔ ∃ k, t.core = .ofKind k) ∧
    (∀ (t : StaticType) (k : Kind), t.core = .ofKind k →
      (r.create t).outcome = .ok (r.forKind k).shared ∧ (r.forKind k).shared.value.kind = k ∧
      (∀ s, Registry.Later (r.forKind k).table s →
        (s.create t).outcome = .ok (r.forKind k).shared) ∧
      ∀ s, Registry.Later (r.create t).registry s → (s.forKind k).shared = (r.forKind k).shared) ∧
    (∀ (t u : StaticType) (s : Registry) (x y : Shared RightShift),
      Registry.Later (r.create t).registry s →
      (r.create t).outcome = .ok x → (s.create u).outcome = .ok y →
      (x.id = y.id ↔ t.core = u.core) ∧ (x = y ↔ t.core = u.core)) ∧
    ∀ t : StaticType, (∀ k, t.core ≠ .ofKind k) →
      (r.create t).outcome = .error (.unsupported "RightShift" t) ∧
      (r.create t).events = [.unresolved "RightShift" t] ∧
      (r.create t).events.map Event.level = ["DEBUG"] ∧
      (r.create t).registry = r := by
  refine ⟨?_, ?_, ?_, ?_⟩
  · intro t
    constructor
    · rintro ⟨x, hx⟩
      obtain ⟨k, hk, -⟩ := Registry.exists_core_of_create hx
      exact ⟨k, hk⟩
    · rintro ⟨k, hk⟩
      exact ⟨_, by rw [Registry.create_of_core r hk]⟩
  · intro t k hk
    refine ⟨?_, ?_, ?_, ?_⟩
    · rw [Registry.create_of_core r hk]
    · rw [hr.faithful.value_forKind k]
    · intro s hs
      rw [Registry.create_of_core s hk, hs.forKind_eq]
    · intro s hs
      rw [Registry.create_of_core r hk] at hs
      rw [hs.forKind_eq]
  · intro t u s x y hs hx hy
    obtain ⟨j, hj, rfl⟩ := Registry.exists_core_of_create hx
    obtain ⟨k, hk, rfl⟩ := Registry.exists_core_of_create hy
    rw [Registry.create_of_core r hj] at hs
    have hid := hs.id_eq_iff (k := k) hr
    have hcore : t.core = u.core ↔ j = k := by
      rw [hj, hk]
      simp [StaticType.ofKind]
    rw [hcore]
    refine ⟨hid, ?_, ?_⟩
    · intro h
      exact hid.mp (congrArg Shared.id h)
    · rintro rfl
      rw [hs.forKind_eq]
  · intro t ht
    rw [Registry.create_of_no_core r ht]
    exact ⟨rfl, rfl, rfl, rfl⟩

theorem create_resolves_core_layers :
    let r : Registry := (Registry.forKind KindTable.empty .uint16).table
    let t : StaticType := .nullable (.enumeration "Flags" (.nullable (.ofKind .int16)))
    let u : StaticType := .enumeration "Flags" (.ofKind .uint16)
    let w : StaticType := .nullable (.enumeration "Flags" (.primitive .bool))
    r.Reachable ∧ t.core = .ofKind .int16 ∧ u.core = .ofKind .uint16 ∧ (∀ k, w.core ≠ .ofKind k) ∧
    ∃ x y, (r.create t).outcome = .ok x ∧ ((r.create t).registry.create u).outcome = .ok y ∧
      x.id ≠ y.id ∧ y.id = 0 ∧ (r.create w).outcome = .error (.unsupported "RightShift" w) ∧
      (r.create w).registry = r := by
  intro r t u w
  have hr : r.Reachable := .forKind .uint16 .empty
  have hw : ∀ k, w.core ≠ .ofKind k := by
    intro k hk
    cases hk
  obtain ⟨-, -, hsame, hfails⟩ := create_resolves_core r hr
  obtain ⟨hid, -⟩ := hsame t u _ _ _ .refl rfl rfl
  obtain ⟨hfault, -, -, hregistry⟩ := hfails w hw
  refine ⟨hr, rfl, rfl, hw, _, _, rfl, rfl, ?_, rfl, hfault, hregistry⟩
  intro h
  exact absurd (hid.mp h) (by decide)

end StackMachine
