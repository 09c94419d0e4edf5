import StackMachine.Proofs.Sequence

namespace StackMachine

def Frame.after (f : Frame) (is : List Instruction) : Frame :=
  is.foldl (fun g i => (i.run.exec g).2) f

theorem Frame.after_cons (f : Frame) (i : Instruction) (is : List Instruction) :
    f.after (i :: is) = (i.run.exec f).2.after is := rfl

theorem drop_eq_cons {is : List Instruction} {n : Nat} {i : Instruction} (hi : is[n]? = some i) :
    is.drop n = i :: is.drop (n + 1) := by
  obtain ⟨hlt, rfl⟩ := List.getElem?_eq_some_iff.mp hi
  exact List.drop_eq_getElem_cons hlt

def Succeed (is : List Instruction) (f : Frame) : Prop :=
  ∀ (n : Nat) (i : Instruction), is[n]? = some i →
    ∃ delta, (i.run.exec (f.after (is.take n))).1 = .ok delta

theorem succeed_nil (f : Frame) : Succeed [] f := by
  intro n i hi
  cases hi

theorem succeed_cons {i : Instruction} {is : List Instruction} {f : Frame} :
    Succeed (i :: is) f ↔
      (∃ delta, (i.run.exec f).1 = .ok delta) ∧ Succeed is (i.run.exec f).2 := by
  constructor
  · intro h
    exact ⟨h 0 i rfl, fun n j hj => h (n + 1) j hj⟩
  · rintro ⟨hi, his⟩ n j hj
    cases n with
    | zero =>
      cases hj
      exact hi
    | succ n => exact his n j hj

namespace Run

variable {is : List Instruction} {f : Frame}

theorem ofInstructions_of_ok (index : Nat) {i : Instruction} {delta : Int}
    (h : (i.run.exec f).1 = .ok delta) :
    ofInstructions index (i :: is) f =
      let tail := ofInstructions (index + 1) is (i.run.exec f).2
      { tail with trace := .executed index i.name delta (i.run.exec f).2.depth :: tail.trace } := by
  rw [ofInstructions]
  generalize i.run.exec f = result at h
  obtain ⟨outcome, g⟩ := result
  cases h
  rfl

theorem ofInstructions_of_error (index : Nat) {i : Instruction} {fault : Fault}
    (h : (i.run.exec f).1 = .error fault) :
    ofInstructions index (i :: is) f = ⟨.error fault, (i.run.exec f).2, []⟩ := by
  rw [ofInstructions]
  generalize i.run.exec f = result at h
  obtain ⟨outcome, g⟩ := result
  cases h
  rfl

def Records (events : List Event) (index : Nat) (is : List Instruction) (f : Frame) : Prop :=
  events.length = is.length ∧
    ∀ (n : Nat) (i : Instruction), is[n]? = some i →
      ∃ delta, (i.run.exec (f.after (is.take n))).1 = .ok delta ∧
        events[n]? = some (.executed (index + n) i.name delta (f.after (is.take (n + 1))).depth)

theorem of_succeed (index : Nat) (h : Succeed is f) :
    (ofInstructions index is f).outcome = .ok () ∧
      (ofInstructions index is f).frame = f.after is ∧
      Records (ofInstructions index is f).trace index is f := by
  induction is generalizing index f with
  | nil =>
    refine ⟨rfl, rfl, rfl, ?_⟩
    intro n i hi
    cases hi
  | cons i is ih =>
    obtain ⟨⟨delta, hi⟩, his⟩ := succeed_cons.mp h
    obtain ⟨houtcome, hframe, hlength, hrecords⟩ := ih (index + 1) his
    rw [ofInstructions_of_ok index hi]
    refine ⟨houtcome, hframe, ?_, ?_⟩
    · rw [List.length_cons, hlength, List.length_cons]
    · intro n j hj
      cases n with
      | zero =>
        cases hj
        exact ⟨delta, hi, rfl⟩
      | succ n =>
        obtain ⟨change, hchange, hrecord⟩ := hrecords n j hj
        refine ⟨change, hchange, ?_⟩
        rw [List.getElem?_cons_succ, hrecord, Nat.add_right_comm]
        rfl

end Run

/-- The instructions before position `n` succeed, and the one at `n` then fails. -/
structure FailsAt (is : List Instruction) (f : Frame) (n : Nat) (i : Instruction) (fault : Fault) :
    Prop where
  before : Succeed (is.take n) f
  instruction : is[n]? = some i
  error : (i.run.exec (f.after (is.take n))).1 = .error fault

namespace FailsAt

variable {is : List Instruction} {f : Frame} {m n : Nat} {i j : Instruction} {e fault : Fault}

theorem not_lt (hm : FailsAt is f m i e) (hn : FailsAt is f n j fault) : ¬ m < n := by
  intro hlt
  have hi : (is.take n)[m]? = some i := by
    rw [List.getElem?_take_of_lt hlt, hm.instruction]
  obtain ⟨delta, hok⟩ := hn.before m i hi
  rw [List.take_take, Nat.min_eq_left (Nat.le_of_lt hlt), hm.error] at hok
  cases hok

theorem unique (hm : FailsAt is f m i e) (hn : FailsAt is f n j fault) : m = n := by
  have hle := hm.not_lt hn
  have hge := hn.not_lt hm
  omega

theorem run (h : FailsAt is f n i fault) (index : Nat) :
    (Run.ofInstructions index is f).outcome = .error fault ∧
      (Run.ofInstructions index is f).frame = (i.run.exec (f.after (is.take n))).2 ∧
      Run.Records (Run.ofInstructions index is f).trace index (is.take n) f := by
  have hsplit : is = is.take n ++ i :: is.drop (n + 1) := by
    rw [← drop_eq_cons h.instruction, List.take_append_drop]
  -- the run of the instructions before `n` comes first, and nothing comes after the failure
  have hrun := Run.ofInstructions_append index (is.take n) (i :: is.drop (n + 1)) f
  rw [← hsplit] at hrun
  obtain ⟨houtcome, hframe, hrecords⟩ := Run.of_succeed index h.before
  generalize Run.ofInstructions index (is.take n) f = r at hrun houtcome hframe hrecords
  obtain ⟨outcome, g, trace⟩ := r
  obtain rfl : outcome = .ok () := houtcome
  obtain rfl : g = f.after (is.take n) := hframe
  dsimp only at hrun
  rw [Run.ofInstructions_of_error _ h.error] at hrun
  rw [hrun]
  refine ⟨rfl, rfl, ?_⟩
  rw [List.append_nil]
  exact hrecords

end FailsAt

theorem Run.exists_failsAt {is : List Instruction} {f : Frame} {index : Nat} {fault : Fault}
    (h : (ofInstructions index is f).outcome = .error fault) : ∃ n i, FailsAt is f n i fault := by
  induction is generalizing index f with
  | nil => cases h
  | cons i is ih =>
    cases hi : (i.run.exec f).1 with
    | error e =>
      rw [ofInstructions_of_error index hi] at h
      cases h
      exact ⟨0, i, succeed_nil f, rfl, hi⟩
    | ok delta =>
      rw [ofInstructions_of_ok index hi] at h
      obtain ⟨n, j, hbefore, hj, herror⟩ := ih h
      exact ⟨n + 1, j, succeed_cons.mpr ⟨⟨delta, hi⟩, hbefore⟩, hj, herror⟩

end StackMachine
