import StackMachine.Instruction

namespace StackMachine

structure Shared (α : Type) where
  id : Nat
  value : α
  deriving DecidableEq

/-- One slot for each kind. A slot is filled at most once and never replaced. -/
structure KindTable (α : Type) where
  slots : Vector (Option (Shared α)) Kind.count

namespace KindTable

variable {α : Type}

def empty : KindTable α :=
  ⟨Vector.replicate Kind.count none⟩

instance : Inhabited (KindTable α) := ⟨empty⟩

def get? (t : KindTable α) (k : Kind) : Option (Shared α) :=
  t.slots[k.index]

def size (t : KindTable α) : Nat :=
  t.slots.toList.countP Option.isSome

def isEmpty (t : KindTable α) : Bool :=
  t.size == 0

def publish (t : KindTable α) (k : Kind) (value : α) : Shared α × KindTable α :=
  -- the identity is the number of instances published before
  let shared := ⟨t.size, value⟩
  (shared, ⟨t.slots.set k.index (some shared)⟩)

structure Lookup (α : Type) where
  shared : Shared α
  table : KindTable α
  events : List Event

def getOrInit {m : Type → Type} [Monad m] (t : KindTable α) (k : Kind) (build : m α) :
    m (Lookup α) :=
  match t.get? k with
  | some shared => pure ⟨shared, t, []⟩
  | none => do
    let value ← build
    let (shared, table) := t.publish k value
    pure ⟨shared, table, [.published k]⟩

@[simp] theorem get?_empty (k : Kind) : (empty : KindTable α).get? k = none := by
  simp [get?, empty]

@[simp] theorem get?_publish_self (t : KindTable α) (k : Kind) (value : α) :
    (t.publish k value).2.get? k = some ⟨t.size, value⟩ := by
  simp [get?, publish]

theorem get?_publish_of_ne (t : KindTable α) {j k : Kind} (value : α) (h : j ≠ k) :
    (t.publish k value).2.get? j = t.get? j := by
  have hi : k.index.val ≠ j.index.val := fun he => h (Kind.index_inj.mp (Fin.ext he.symm))
  simp [get?, publish, hi]

def entries (t : KindTable α) : List (Kind × Shared α) :=
  Kind.all.filterMap (fun k => (t.get? k).map (fun shared => (k, shared)))

def layout (part : α → Layout) (t : KindTable α) : Layout :=
  .map (t.entries.map (fun (k, shared) => (k.name, part shared.value)))

end KindTable

abbrev Registry := KindTable RightShift

structure Resolution where
  outcome : Except Fault (Shared RightShift)
  registry : Registry
  events : List Event

namespace Registry

def forKind (r : Registry) (k : Kind) : KindTable.Lookup RightShift :=
  Id.run (r.getOrInit k (pure ⟨k⟩))

def create (r : Registry) (type : StaticType) : Resolution :=
  match type.numericKind? with
  | some k =>
    let found := r.forKind k
    ⟨.ok found.shared, found.table, found.events⟩
  | none =>
    ⟨.error (.unsupported RightShift.operator type), r, [.unresolved RightShift.operator type]⟩

theorem forKind_of_some {r : Registry} {k : Kind} {shared : Shared RightShift}
    (h : r.get? k = some shared) : r.forKind k = ⟨shared, r, []⟩ := by
  simp [forKind, KindTable.getOrInit, h]

theorem forKind_of_none {r : Registry} {k : Kind} (h : r.get? k = none) :
    r.forKind k = ⟨⟨r.size, ⟨k⟩⟩, (r.publish k ⟨k⟩).2, [.published k]⟩ := by
  simp [forKind, KindTable.getOrInit, KindTable.publish, h]

theorem get?_forKind (r : Registry) (k : Kind) :
    (r.forKind k).table.get? k = some (r.forKind k).shared := by
  cases h : r.get? k with
  | none => rw [forKind_of_none h, KindTable.get?_publish_self]
  | some shared => rw [forKind_of_some h, h]

def full : Registry :=
  Kind.all.foldl (fun r k => (r.forKind k).table) KindTable.empty

end Registry

end StackMachine
