namespace StackMachine.Json.Numeral

def sign : List Char → List Char × List Char
  | '-' :: rest => (['-'], rest)
  | rest => ([], rest)

def digits? (cs : List Char) : Option (List Char × List Char) :=
  if cs.takeWhile Char.isDigit = [] then none
  else some (cs.takeWhile Char.isDigit, cs.dropWhile Char.isDigit)

def whole? : List Char → Option (List Char × List Char)
  | '0' :: rest => some (['0'], rest)
  | cs => digits? cs

def fraction? : List Char → Option (List Char × List Char)
  | '.' :: cs => (digits? cs).map (fun (ds, rest) => ('.' :: ds, rest))
  | cs => some ([], cs)

def exponent? : List Char → Option (List Char × List Char)
  | e :: s :: cs =>
    if e = 'e' ∨ e = 'E' then
      if s = '+' ∨ s = '-' then (digits? cs).map (fun (ds, rest) => (e :: s :: ds, rest))
      else (digits? (s :: cs)).map (fun (ds, rest) => (e :: ds, rest))
    else some ([], e :: s :: cs)
  | [e] => if e = 'e' ∨ e = 'E' then none else some ([], [e])
  | [] => some ([], [])

def read? (cs : List Char) : Option (List Char × List Char) := do
  let (s, cs) := sign cs
  let (w, cs) ← whole? cs
  let (f, cs) ← fraction? cs
  let (e, cs) ← exponent? cs
  return (s ++ w ++ f ++ e, cs)

theorem append_of_digits? {cs ds rest : List Char} (h : digits? cs = some (ds, rest)) :
    cs = ds ++ rest ∧ ds ≠ [] := by
  unfold digits? at h
  split at h
  · simp at h
  · rename_i hne
    obtain ⟨rfl, rfl⟩ := Prod.mk.inj (Option.some.inj h)
    exact ⟨List.takeWhile_append_dropWhile.symm, hne⟩

theorem append_sign (cs : List Char) : (sign cs).1 ++ (sign cs).2 = cs := by
  unfold sign
  split <;> rfl

theorem append_of_whole? {cs ds rest : List Char} (h : whole? cs = some (ds, rest)) :
    cs = ds ++ rest ∧ ds ≠ [] := by
  unfold whole? at h
  split at h
  · obtain ⟨rfl, rfl⟩ := Prod.mk.inj (Option.some.inj h)
    simp
  · exact append_of_digits? h

theorem append_of_fraction? {cs ds rest : List Char} (h : fraction? cs = some (ds, rest)) :
    cs = ds ++ rest := by
  unfold fraction? at h
  split at h
  · obtain ⟨⟨ds', r⟩, hr, he⟩ := Option.map_eq_some_iff.mp h
    obtain ⟨rfl, rfl⟩ := Prod.mk.inj he
    simp [(append_of_digits? hr).1]
  · obtain ⟨rfl, rfl⟩ := Prod.mk.inj (Option.some.inj h)
    simp

theorem append_of_exponent? {cs ds rest : List Char} (h : exponent? cs = some (ds, rest)) :
    cs = ds ++ rest := by
  unfold exponent? at h
  split at h
  · split at h
    · split at h
      all_goals
        obtain ⟨⟨ds', r⟩, hr, he⟩ := Option.map_eq_some_iff.mp h
        obtain ⟨rfl, rfl⟩ := Prod.mk.inj he
        simp [(append_of_digits? hr).1]
    · obtain ⟨rfl, rfl⟩ := Prod.mk.inj (Option.some.inj h)
      simp
  · split at h
    · simp at h
    · obtain ⟨rfl, rfl⟩ := Prod.mk.inj (Option.some.inj h)
      simp
  · obtain ⟨rfl, rfl⟩ := Prod.mk.inj (Option.some.inj h)
    simp

theorem append_of_read? {cs ds rest : List Char} (h : read? cs = some (ds, rest)) :
    cs = ds ++ rest ∧ ds ≠ [] := by
  simp only [read?, Option.bind_eq_bind, Option.bind_eq_some_iff] at h
  obtain ⟨⟨w, cs₁⟩, hw, ⟨f, cs₂⟩, hf, ⟨e, cs₃⟩, he, h⟩ := h
  obtain ⟨rfl, rfl⟩ := Prod.mk.inj (Option.some.inj h)
  obtain ⟨hw, hne⟩ := append_of_whole? hw
  have hs := append_sign cs
  have hf : cs₁ = f ++ cs₂ := append_of_fraction? hf
  have he : cs₂ = e ++ cs₃ := append_of_exponent? he
  rw [hw, hf, he] at hs
  exact ⟨by simpa using hs.symm, by simp [hne]⟩

def natural? (numeral : List Char) : Option Nat :=
  if numeral.all Char.isDigit then some (Nat.ofDigitChars 10 numeral 0) else none

theorem natural?_toDigits (n : Nat) : natural? (Nat.toDigits 10 n) = some n := by
  have h : (Nat.toDigits 10 n).all Char.isDigit = true :=
    List.all_eq_true.mpr (fun _ hc => Nat.isDigit_of_mem_toDigits (by decide) (by decide) hc)
  simp [natural?, h]

end StackMachine.Json.Numeral
